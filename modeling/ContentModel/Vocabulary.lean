/-!
# Fixed names

The namespaces that the standards for schemas and for markup give names to, and the version of this
library.
-/

set_option autoImplicit false

namespace ContentModel

/-- The name of a namespace of the standards, which all begin alike. -/
def standardNamespace (path : String) : String := "http://www.w3.org/" ++ path

def xsd10Namespace : String := standardNamespace "2001/XMLSchema"

def xsd11Namespace : String := standardNamespace "2009/XMLSchema"

def xmlNamespace : String := standardNamespace "XML/1998/namespace"

def xmlnsNamespace : String := standardNamespace "2000/xmlns/"

def version : String := "0.1.0"

end ContentModel
