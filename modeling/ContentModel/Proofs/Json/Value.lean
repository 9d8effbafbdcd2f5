import ContentModel.Json.Reader
import ContentModel.Proofs.Json.Token

/-!
# Values read back

A text is cut into tokens first, and a machine reads the tokens then. The two passes are as good as
one that hands each token to the machine as soon as it is cut off (`run_of_readToken`). That one can
be followed along the layout of a value, with anything around it and anything after it
(`ReadsBack`), and so, by induction over the value,

> **the text of a value is read as that value** (`Value.parse?_pretty`),

how deep it may be nested and whatever its strings hold. The limit on nesting is not the text's: it
comes in where a summary is read from the value.
-/

set_option autoImplicit false

namespace ContentModel.Json

/-! ## 1. Reading a text in one go -/

theorem tokensFrom_of_gap {c : Char} (hc : isGap c = true) (before : List Token) (cs : List Char) :
    tokensFrom before (c :: cs) = tokensFrom before cs := by
  rw [tokensFrom, if_pos hc]

theorem readToken_of_gap {c : Char} (hc : isGap c = true) (cs : List Char) :
    readToken (c :: cs) = none := by
  simp only [isGap, Bool.or_eq_true, beq_iff_eq] at hc
  obtain ((rfl | rfl) | rfl) | rfl := hc <;> rfl

theorem tokensFrom_of_readToken {cs rest : List Char} {t : Token}
    (h : readToken cs = some (t, rest)) (before : List Token) :
    tokensFrom before cs = tokensFrom (t :: before) rest := by
  cases cs with
  | nil => cases h
  | cons c cs =>
    have hc : ¬ isGap c = true := by
      intro hc
      rw [readToken_of_gap hc] at h
      cases h
    rw [tokensFrom, if_neg hc]
    split
    · rename_i hnone
      rw [h] at hnone
      cases hnone
    · rename_i hsome
      rw [h] at hsome
      cases hsome
      rfl

/-- Tokens that were cut off earlier only come first. -/
theorem tokensFrom_append (before earlier : List Token) (cs : List Char) :
    tokensFrom (before ++ earlier) cs = (tokensFrom before cs).map (earlier.reverse ++ ·) := by
  fun_induction tokensFrom before cs with
  | case1 before =>
    rw [tokensFrom, List.reverse_append]
    rfl
  | case2 before c cs hc ih => rw [tokensFrom_of_gap hc, ih]
  | case3 before c cs hc hread =>
    rw [tokensFrom, if_neg hc]
    split
    · rfl
    · rename_i hsome
      rw [hread] at hsome
      cases hsome
  | case4 before c cs hc t rest hread ih =>
    rw [tokensFrom_of_readToken hread]
    exact ih

/-- Reads on from a state to the end of a text. -/
def run (st : State) (cs : List Char) : Option State :=
  (tokensFrom [] cs).bind fun ts => ts.foldlM readNext st

theorem run_nil (st : State) : run st [] = some st := by
  rw [run, tokensFrom]
  rfl

theorem run_of_gap {c : Char} (hc : isGap c = true) (st : State) (cs : List Char) :
    run st (c :: cs) = run st cs := by
  rw [run, tokensFrom_of_gap hc, run]

/-- A token goes to the machine as soon as it is cut off. If the machine refuses it, the rest of the
text makes no difference any more. -/
theorem run_of_readToken {cs rest : List Char} {t : Token} (h : readToken cs = some (t, rest))
    (st : State) :
    run st cs = (readNext st t).bind fun st' => run st' rest := by
  have htokens : tokensFrom [] cs = (tokensFrom [] rest).map (t :: ·) := by
    rw [tokensFrom_of_readToken h]
    exact tokensFrom_append [] [t] rest
  rw [run, htokens, Option.bind_map]
  exact Option.bind_comm _ _

/-! ## 2. Values in a text -/

theorem Value.induction {motive : Value → Prop} (null : motive .null) (bool : ∀ b, motive (.bool b))
    (number : ∀ whole, motive (.number whole)) (string : ∀ text, motive (.string text))
    (array : ∀ items, (∀ v ∈ items, motive v) → motive (.array items))
    (object : ∀ fields, (∀ f ∈ fields, motive f.2) → motive (.object fields)) : ∀ v, motive v
  | .null => null
  | .bool b => bool b
  | .number whole => number whole
  | .string text => string text
  | .array items => array items fun v _ => induction null bool number string array object v
  | .object fields => object fields fun f _ => induction null bool number string array object f.2
termination_by v => sizeOf v
decreasing_by
  · have := List.sizeOf_lt_of_mem ‹v ∈ items›
    rw [Value.array.sizeOf_spec]
    omega
  · have := List.sizeOf_lt_of_mem ‹f ∈ fields›
    have : sizeOf f = 1 + sizeOf f.1 + sizeOf f.2 := rfl
    rw [Value.object.sizeOf_spec]
    omega

/-- Wherever the value is laid out, reading it delivers it. -/
def ReadsBack (v : Value) : Prop :=
  ∀ depth around rest, Ends rest →
    run (.value, around) (v.layout depth ++ rest) = run (deliver v around) rest

section

variable {cs rest : List Char} {t : Token} {st st' : State} {depth : Nat} {around : List Context}

theorem run_step (h : readToken cs = some (t, rest)) (hst : readNext st t = some st') :
    run st cs = run st' rest := by
  rw [run_of_readToken h, hst]
  rfl

theorem run_newline (st : State) (depth : Nat) (cs : List Char) :
    run st (newline depth ++ cs) = run st cs := by
  have hspaces : ∀ n, run st (List.replicate n ' ' ++ cs) = run st cs := by
    intro n
    induction n with
    | zero => rfl
    | succ n ih =>
      rw [List.replicate_succ, List.cons_append, run_of_gap rfl]
      exact ih
  rw [newline, List.cons_append, run_of_gap rfl]
  exact hspaces _

/-- No value begins like the end of an array. -/
theorem exists_readToken_layout (v : Value) (depth : Nat) (h : Ends rest) :
    ∃ t rest', readToken (v.layout depth ++ rest) = some (t, rest') ∧ t ≠ .closeBracket := by
  cases v with
  | null => exact ⟨.null, rest, rfl, by simp⟩
  | bool b => cases b with
    | true => exact ⟨.bool true, rest, rfl, by simp⟩
    | false => exact ⟨.bool false, rest, rfl, by simp⟩
  | number whole => exact ⟨.number whole, rest, readToken_numeral whole h, by simp⟩
  | string text => exact ⟨.string text, rest, readToken_quote text rest, by simp⟩
  | array items => cases items with
    | nil => exact ⟨.openBracket, _, rfl, by simp⟩
    | cons v vs => exact ⟨.openBracket, _, rfl, by simp⟩
  | object fields => cases fields with
    | nil => exact ⟨.openBrace, _, rfl, by simp⟩
    | cons f fs => exact ⟨.openBrace, _, rfl, by simp⟩

theorem run_firstItem (v : Value) (depth : Nat) (around : List Context) (h : Ends rest) :
    run (.firstItem, around) (v.layout depth ++ rest) =
      run (.value, .array [] :: around) (v.layout depth ++ rest) := by
  obtain ⟨t, rest', hread, ht⟩ := exists_readToken_layout v depth h
  have hnext : readNext (.firstItem, around) t = readNext (.value, .array [] :: around) t := by
    cases t with
    | closeBracket => exact absurd rfl ht
    | _ => rfl
  rw [run_of_readToken hread, run_of_readToken hread, hnext]

theorem ends_itemsLayout (vs : List Value) (h : Ends rest) :
    Ends (itemsLayout depth vs ++ rest) := by
  cases vs with
  | nil => exact h
  | cons v vs => exact ends_comma _

/-- The items of an array after its first one, each after a comma. -/
theorem run_itemsLayout {vs : List Value} (hvs : ∀ v ∈ vs, ReadsBack v) (before : List Value)
    (h : Ends rest) :
    run (.item before, around) (itemsLayout depth vs ++ rest) =
      run (.item (vs.reverse ++ before), around) rest := by
  induction vs generalizing before with
  | nil => rfl
  | cons v vs ih =>
    rw [List.forall_mem_cons] at hvs
    simp only [itemsLayout, List.cons_append, List.append_assoc]
    rw [run_step rfl rfl, run_newline, hvs.1 _ _ _ (ends_itemsLayout vs h), deliver, ih hvs.2,
      List.reverse_cons, List.append_assoc]
    rfl

theorem ends_fieldsLayout (fs : List (Option String × Value)) (h : Ends rest) :
    Ends (fieldsLayout depth fs ++ rest) := by
  cases fs with
  | nil => exact h
  | cons f fs => exact ends_comma _

/-- From a name on to the end of the value that stands under it. -/
theorem run_field {v : Value} (hv : ReadsBack v) (fields : List (Option String × Value))
    (name : Option String) (hst : readNext st (.string name) = some (.colon fields name, around))
    (h : Ends rest) :
    run st (quote name ++ (':' :: ' ' :: (v.layout depth ++ rest))) =
      run (.field ((name, v) :: fields), around) rest := by
  rw [run_step (readToken_quote name _) hst, run_step rfl rfl, run_of_gap rfl, hv _ _ _ h, deliver]

/-- The fields of an object after its first one, each after a comma. -/
theorem run_fieldsLayout {fs : List (Option String × Value)} (hfs : ∀ f ∈ fs, ReadsBack f.2)
    (before : List (Option String × Value)) (h : Ends rest) :
    run (.field before, around) (fieldsLayout depth fs ++ rest) =
      run (.field (fs.reverse ++ before), around) rest := by
  induction fs generalizing before with
  | nil => rfl
  | cons f fs ih =>
    obtain ⟨k, v⟩ := f
    rw [List.forall_mem_cons] at hfs
    simp only [fieldsLayout, List.cons_append, List.nil_append, List.append_assoc]
    rw [run_step rfl rfl, run_newline, run_field hfs.1 before k rfl (ends_fieldsLayout fs h),
      ih hfs.2, List.reverse_cons, List.append_assoc]
    rfl

theorem readsBack_array {items : List Value} (hitems : ∀ v ∈ items, ReadsBack v) :
    ReadsBack (.array items) := by
  intro depth around rest _
  cases items with
  | nil =>
    have hopen : run (.value, around) ('[' :: ']' :: rest) =
        run (.firstItem, around) (']' :: rest) :=
      run_step rfl rfl
    exact hopen.trans (run_step rfl rfl)
  | cons v vs =>
    have hends : Ends (newline depth ++ ']' :: rest) := ends_newline depth _
    obtain ⟨hv, hvs⟩ := List.forall_mem_cons.1 hitems
    simp only [Value.layout, List.cons_append, List.nil_append, List.append_assoc]
    -- the opening bracket, the first item, the others, and the closing bracket
    rw [run_step rfl rfl, run_newline, run_firstItem v _ _ (ends_itemsLayout vs hends),
      hv _ _ _ (ends_itemsLayout vs hends), deliver, run_itemsLayout hvs _ hends, run_newline,
      run_step rfl rfl, List.reverse_append, List.reverse_reverse]
    rfl

theorem readsBack_object {fields : List (Option String × Value)}
    (hfields : ∀ f ∈ fields, ReadsBack f.2) :
    ReadsBack (.object fields) := by
  intro depth around rest _
  cases fields with
  | nil =>
    have hopen : run (.value, around) ('{' :: '}' :: rest) =
        run (.firstName, around) ('}' :: rest) :=
      run_step rfl rfl
    exact hopen.trans (run_step rfl rfl)
  | cons f fs =>
    obtain ⟨k, v⟩ := f
    have hends : Ends (newline depth ++ '}' :: rest) := ends_newline depth _
    obtain ⟨hv, hfs⟩ := List.forall_mem_cons.1 hfields
    simp only [Value.layout, List.cons_append, List.nil_append, List.append_assoc]
    rw [run_step rfl rfl, run_newline, run_field hv [] k rfl (ends_fieldsLayout fs hends),
      run_fieldsLayout hfs _ hends, run_newline, run_step rfl rfl, List.reverse_append,
      List.reverse_reverse]
    rfl

/-- **What was laid out is read back**, by induction over the value. -/
theorem readsBack (v : Value) : ReadsBack v := by
  induction v using Value.induction with
  | null => exact fun _ _ _ _ => run_step rfl rfl
  | bool b =>
    intro _ _ _ _
    cases b with
    | true => exact run_step rfl rfl
    | false => exact run_step rfl rfl
  | number whole => exact fun _ _ _ h => run_step (readToken_numeral whole h) rfl
  | string text => exact fun _ _ rest _ => run_step (readToken_quote text rest) rfl
  | array items hitems => exact readsBack_array hitems
  | object fields hfields => exact readsBack_object hfields

end

/-- **A value's own text is read as that value.** -/
theorem Value.parse?_pretty (v : Value) : Value.parse? v.pretty = some v := by
  have hrun : run (.value, []) (v.layout 0) = some (.done v, []) := by
    have h := readsBack v 0 [] [] ends_nil
    rwa [List.append_nil, deliver, run_nil] at h
  obtain ⟨ts, hts, hdone⟩ := Option.bind_eq_some_iff.1 hrun
  have htokens : tokens v.pretty = some ts := by
    rw [tokens, Value.pretty, String.toList_ofList, hts]
  rw [Value.parse?, htokens, Option.bind_eq_bind, Option.bind_some, Value.ofTokens?, hdone]

end ContentModel.Json
