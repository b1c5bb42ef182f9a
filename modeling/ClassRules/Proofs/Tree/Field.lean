import ClassRules.Proofs.Tree.Reading

/-!
# Fields

The texts that stand in a printed statement: selectors, params, properties and values.

## What this module delivers

- `fieldKinds`, `IsField`: the kinds of a text's tokens, and the texts that may stand between the
  marks of a statement. `IsField.exists_tokens`: before a delimiter such a text is cut as it is by
  itself.
- `StartsStatement`: a statement that starts with the field is a rule or a declaration.
- `paramsText`, `valueText`: params and values with what is printed around them;
  `exists_paramsTokens`, `exists_valueTokens_plain`, `exists_valueTokens_important`: how they are
  cut, and what is left of them without their surroundings.
- `withoutMark`, `splitImportant?_eq`: a value without its mark, counted in characters.
  `splitImportant?_of_not_suffix`, `splitImportant?_append_mark`: the mark is found where it is
  printed, and nowhere else.
-/

set_option autoImplicit false

namespace ClassRules

open Text ClassRules.Parser

/-- The kinds of the tokens of a text, without the mark of its end. -/
def fieldKinds (text : String) : List Token.Kind :=
  ((tokenize text).tokens.map Token.kind).dropLast

theorem fieldKinds_empty : fieldKinds "" = [] := by
  rw [fieldKinds, tokenize, Cursor.ofText, String.toList_empty, tokensFrom_nil]
  rfl

/-- A text that may be a selector, params, a property or a value: trimmed, cut by itself without an
error, and without a word that waits for a character behind a backslash. -/
structure IsField (text : String) : Prop where
  trimmed : IsTrimmed text.toList
  errors : (tokenize text).errors = []
  finished : ∀ t ∈ (tokenize text).tokens, t.kind = .word → Lexeme.isFinished t.text.toList = true

instance (text : String) : Decidable (IsField text) :=
  decidable_of_iff (IsTrimmed text.toList ∧ (tokenize text).errors = [] ∧
    ∀ t ∈ (tokenize text).tokens, t.kind = .word → Lexeme.isFinished t.text.toList = true)
    ⟨fun h => ⟨h.1, h.2.1, h.2.2⟩, fun h => ⟨h.trimmed, h.errors, h.finished⟩⟩

/-- The tokens of a field: they are its tokens before any delimiter, and the first is no white
space. -/
structure FieldTokens (text : String) (ps : List BareToken) : Prop where
  cut : ∀ d, Delimits d → Cut (text.toList ++ d) ps d
  kinds : ps.map BareToken.kind = fieldKinds text
  spells : spells ps = text.toList
  head : ∀ p ∈ ps.head?, p.kind ≠ .blank

/-- A field is cut before a delimiter as it is by itself. -/
theorem IsField.exists_tokens {text : String} (h : IsField text) : ∃ ps, FieldTokens text ps := by
  obtain ⟨ps, hcut, hmap⟩ := cut_of_tokensFrom text.toList .start h.errors
  have htokens : (tokenize text).tokens.map Token.bare = ps ++ [⟨.stop, []⟩] := hmap
  have hwords : ∀ p ∈ ps, p.kind = .word → Lexeme.isFinished p.chars = true := by
    intro p hp hword
    have hmem : p ∈ (tokenize text).tokens.map Token.bare := by
      rw [htokens]
      exact List.mem_append_left _ hp
    obtain ⟨t, ht, rfl⟩ := List.mem_map.1 hmem
    exact h.finished t ht hword
  refine ⟨ps, fun d hd => hcut.before rfl hd hwords h.trimmed.last, ?_, ?_, ?_⟩
  · have hkinds : (tokenize text).tokens.map Token.kind = ps.map BareToken.kind ++ [.stop] := by
      have hkinds := congrArg (List.map BareToken.kind) htokens
      rw [List.map_map, List.map_append] at hkinds
      exact hkinds
    rw [fieldKinds, hkinds, List.dropLast_concat]
  · have hspells := hcut.eq_spells
    rw [List.append_nil] at hspells
    exact hspells.symm
  · exact hcut.head_ne_blank h.trimmed.head

/-- The first token of a text is neither a comment nor an at-keyword, which are statements of their
own. -/
def StartsStatement (text : String) : Prop :=
  ∀ k ∈ (fieldKinds text).head?, k ≠ .comment ∧ k ≠ .atKeyword

instance (text : String) : Decidable (StartsStatement text) :=
  inferInstanceAs (Decidable (∀ k ∈ (fieldKinds text).head?, k ≠ .comment ∧ k ≠ .atKeyword))

/-- The first token of a field starts a statement, if it is neither a comment nor an at-keyword and
does not end one. -/
theorem FieldTokens.startsStatement {text : String} {ps : List BareToken} {d : Nat}
    (h : FieldTokens text ps) (hstart : StartsStatement text)
    (hd : depthBehind? 0 (fieldKinds text) = some d) :
    ∀ p ∈ ps.head?, p.kind.startsStatement = true := by
  intro p hp
  cases ps with
  | nil => cases hp
  | cons q ps =>
    cases hp
    have hblank := h.head p rfl
    rw [StartsStatement, ← h.kinds] at hstart
    rw [← h.kinds] at hd
    obtain ⟨hcomment, hkeyword⟩ := hstart p.kind rfl
    -- The other kinds that do not start a statement end one at depth zero.
    have hends := (depthBehind?_cons_eq_some hd).1
    generalize p.kind = k at hblank hcomment hkeyword hends ⊢
    cases k
    case blank => exact absurd rfl hblank
    case comment => exact absurd rfl hcomment
    case atKeyword => exact absurd rfl hkeyword
    case openBrace | closeBrace | semicolon | stop => cases hends
    all_goals rfl

/-! ## Surroundings -/

theorem isBlank_space : isBlank ' ' = true := by decide

theorem blank_of_mem_space : ∀ a ∈ [' '], isBlank a = true :=
  List.forall_mem_singleton.2 isBlank_space

/-- A field behind a space. -/
theorem cut_space_field {text : String} {ps : List BareToken} (h : IsField text)
    (hps : FieldTokens text ps) (hne : text.toList ≠ []) {d : List Char} (hd : Delimits d) :
    Cut (' ' :: text.toList ++ d) (⟨.blank, [' ']⟩ :: ps) d := by
  have hblank : Cut ([' '] ++ (text.toList ++ d)) (blankRun [' ']) (text.toList ++ d) := by
    refine Cut.blanks blank_of_mem_space ?_
    have hhead := h.trimmed.head
    obtain ⟨c, cs, hc⟩ := List.exists_cons_of_ne_nil hne
    rw [hc] at hhead ⊢
    exact hhead
  exact hblank.append (hps.cut d hd)

/-- A space before a brace. -/
theorem cut_space_brace (rest : List Char) :
    Cut (' ' :: '{' :: rest) [⟨.blank, [' ']⟩, ⟨.openBrace, ['{']⟩] rest :=
  (Cut.blanks_cons blank_of_mem_space (by decide) rest).append (Cut.punctuation rfl rest)

/-- White space behind a field opens and closes nothing. -/
theorem depthBehind?_append_blank {depth d : Nat} {ks : List Token.Kind}
    (h : depthBehind? depth ks = some d) : depthBehind? depth (ks ++ [.blank]) = some d := by
  rw [depthBehind?_append, h]
  rfl

/-! ## At-rules -/

/-- The name of an at-rule: a word of name characters. -/
def IsName (name : String) : Prop :=
  name.toList ≠ [] ∧ name.toList.all Lexeme.isNameChar = true

instance (name : String) : Decidable (IsName name) :=
  inferInstanceAs (Decidable (name.toList ≠ [] ∧ name.toList.all Lexeme.isNameChar = true))

/-- The name is what is left of the keyword without its at-sign. -/
theorem dropWhile_at {name : String} (h : IsName name) :
    String.ofList (('@' :: name.toList).dropWhile (· == '@')) = name := by
  rw [Lexeme.dropWhile_at (List.all_eq_true.1 h.2), String.ofList_toList]

/-- The params of an at-rule as they stand behind its name. -/
def paramsText (params : String) : List Char :=
  if params = "" then [] else ' ' :: params.toList

/-- The tokens behind the name of an at-rule, whatever delimiter follows them. -/
structure ParamsTokens (params : String) (ps : List BareToken) : Prop where
  cut : ∀ d, Delimits d → Cut (paramsText params ++ d) ps d
  delimits : ∀ d, Delimits d → Delimits (paramsText params ++ d)
  depth : depthBehind? 0 (ps.map BareToken.kind) = depthBehind? 0 (fieldKinds params)
  text : ∀ trail, (∀ a ∈ trail, isBlank a = true) → trim (spells ps ++ trail) = params.toList

theorem exists_paramsTokens {params : String} (h : IsField params) :
    ∃ ps, ParamsTokens params ps := by
  obtain ⟨ps, hps⟩ := h.exists_tokens
  by_cases hnil : params = ""
  · subst hnil
    refine ⟨[], fun d _ => .done d, fun d hd => hd, ?_, ?_⟩
    · rw [fieldKinds_empty]
      rfl
    · intro trail htrail
      exact IsTrimmed.nil.trim_append htrail
  · have hne : params.toList ≠ [] := fun h => hnil (String.toList_eq_nil_iff.1 h)
    have htext : paramsText params = ' ' :: params.toList := if_neg hnil
    refine ⟨⟨.blank, [' ']⟩ :: ps, ?_, ?_, ?_, ?_⟩
    · intro d hd
      rw [htext]
      exact cut_space_field h hps hne hd
    · intro d _
      rw [htext]
      exact delimits_space _
    · rw [← hps.kinds]
      rfl
    · intro trail htrail
      rw [spells_cons, hps.spells]
      exact h.trimmed.trim_pad blank_of_mem_space htrail

/-! ## Values -/

/-- A capital letter and its small form have one byte each. -/
theorem utf8Size_toLower (c : Char) : c.toLower.utf8Size = c.utf8Size := by
  unfold Char.toLower
  split
  · rename_i h
    have hcapital : c.val.toNat ≤ 90 := UInt32.le_iff_toNat_le.1 h.2
    have hc : c.val ≤ 127 := UInt32.le_iff_toNat_le.2 (Nat.le_trans hcapital (by decide))
    have hsmall : c.val + ('a'.val - 'A'.val) ≤ 127 := by
      have hshift : ('a'.val - 'A'.val).toNat = 32 := rfl
      have hbound : (127 : UInt32).toNat = 127 := rfl
      rw [UInt32.le_iff_toNat_le, UInt32.toNat_add, hshift, hbound]
      omega
    rw [Char.utf8Size_eq_one_iff.2 hc, Char.utf8Size_eq_one_iff.2 hsmall]
  · rfl

theorem byteLength_map_toLower (cs : List Char) :
    byteLength (cs.map Char.toLower) = byteLength cs := by
  induction cs with
  | nil => rfl
  | cons c cs ih => rw [List.map_cons, byteLength, byteLength, ih, utf8Size_toLower]

/-- A value without the mark at its end and the white space before that, and whether the mark was
there. Unlike the parser this counts characters. -/
def withoutMark (value : List Char) : List Char × Bool :=
  if importantMark.isSuffixOf (value.map Char.toLower) then
    (trimEnd (value.take (value.length - importantMark.length)), true)
  else (value, false)

/-- The mark is cut off between two characters of the value. -/
theorem splitImportant?_eq (value : List Char) :
    splitImportant? value = some (withoutMark value) := by
  have hslice := slice?_append [] (value.take (value.length - importantMark.length))
    (value.drop (value.length - importantMark.length))
  rw [List.nil_append, List.take_append_drop, show byteLength [] = 0 from rfl,
    Nat.zero_add] at hslice
  rw [splitImportant?, withoutMark]
  simp only
  split
  · rw [List.length_map, ← List.map_take, byteLength_map_toLower, hslice]
    rfl
  · rfl

variable {value : List Char}

/-- A value without the mark at its end is kept. -/
theorem splitImportant?_of_not_suffix (h : ¬ importantMark <:+ value.map Char.toLower) :
    splitImportant? value = some (value, false) := by
  rw [splitImportant?_eq, withoutMark, if_neg (fun hs => h (List.isSuffixOf_iff_suffix.1 hs))]

/-- The mark behind a value is taken off with the white space before it. -/
theorem splitImportant?_append_mark {trail : List Char} (h : IsTrimmed value)
    (htrail : ∀ a ∈ trail, isBlank a = true) :
    splitImportant? (value ++ trail ++ importantMark) = some (value, true) := by
  have hmark : importantMark.map Char.toLower = importantMark := by decide
  have hsmall : (value ++ trail ++ importantMark).map Char.toLower =
      (value ++ trail).map Char.toLower ++ importantMark := by
    rw [List.map_append, hmark]
  rw [splitImportant?_eq, withoutMark, hsmall,
    if_pos (List.isSuffixOf_iff_suffix.2 (List.suffix_append _ _)), List.length_append,
    Nat.add_sub_cancel, List.take_left, trimEnd_append_blank _ htrail, h.trimEnd_eq]

/-- A value and its mark as they stand behind the colon. -/
def valueText (value : String) (important : Bool) : List Char :=
  ' ' :: value.toList ++ if important then ' ' :: importantMark else []

/-- What stands between the colon and the semicolon of a declaration. -/
structure ValueTokens (value : String) (important : Bool) (ps : List BareToken) : Prop where
  cut : ∀ rest, Cut (valueText value important ++ ';' :: rest) ps (';' :: rest)
  depth : ∀ d, depthBehind? d (ps.map BareToken.kind) = depthBehind? d (fieldKinds value)
  text : splitImportant? (trim (spells ps)) = some (value.toList, important)

theorem isTrimmed_importantMark : IsTrimmed importantMark := by decide

theorem cut_importantMark (rest : List Char) :
    Cut (importantMark ++ ';' :: rest) [⟨.word, importantMark⟩] (';' :: rest) := by
  have hmark : importantMark = '!' :: "important".toList ++ [] := by decide
  have hword : Cut importantMark [⟨.word, importantMark⟩] [] := by
    rw [hmark]
    exact .single rfl
  refine hword.before rfl (delimits_semicolon rest) ?_ isTrimmed_importantMark.last
  intro p hp _
  rw [List.mem_singleton.1 hp]
  decide

/-- The value of a declaration without the mark. -/
theorem exists_valueTokens_plain {value : String} (h : IsField value)
    (hplain : ¬ importantMark <:+ value.toList.map Char.toLower) :
    ∃ ps, ValueTokens value false ps := by
  obtain ⟨ps, hps⟩ := h.exists_tokens
  have hsplit := splitImportant?_of_not_suffix hplain
  by_cases hnil : value.toList = []
  · refine ⟨[⟨.blank, [' ']⟩], ?_, ?_, ?_⟩
    · intro rest
      rw [valueText, hnil]
      exact Cut.blanks_cons blank_of_mem_space (by decide) rest
    · intro d
      rw [String.toList_eq_nil_iff.1 hnil, fieldKinds_empty]
      rfl
    · rw [hnil] at hsplit ⊢
      exact hsplit
  · refine ⟨⟨.blank, [' ']⟩ :: ps, ?_, ?_, ?_⟩
    · intro rest
      have hcut := cut_space_field h hps hnil (delimits_semicolon rest)
      rw [valueText, if_neg Bool.false_ne_true, List.append_nil]
      exact hcut
    · intro d
      rw [← hps.kinds]
      rfl
    · rw [spells_cons, hps.spells, h.trimmed.trim_prepend blank_of_mem_space]
      exact hsplit

/-- The value of a declaration with the mark. -/
theorem exists_valueTokens_important {value : String} (h : IsField value) :
    ∃ ps, ValueTokens value true ps := by
  obtain ⟨ps, hps⟩ := h.exists_tokens
  have hmark := isTrimmed_importantMark
  have hspaces : ∀ a ∈ [' ', ' '], isBlank a = true :=
    List.forall_mem_cons.2 ⟨isBlank_space, blank_of_mem_space⟩
  by_cases hnil : value.toList = []
  · -- The space before the value and the one behind it are a single token.
    refine ⟨[⟨.blank, [' ', ' ']⟩, ⟨.word, importantMark⟩], ?_, ?_, ?_⟩
    · intro rest
      have hblank : Cut ([' ', ' '] ++ (importantMark ++ ';' :: rest)) (blankRun [' ', ' '])
          (importantMark ++ ';' :: rest) := Cut.blanks_cons hspaces (by decide) _
      rw [valueText, hnil]
      exact hblank.append (cut_importantMark rest)
    · intro d
      rw [String.toList_eq_nil_iff.1 hnil, fieldKinds_empty]
      rfl
    · have hsplit : splitImportant? ([] ++ [] ++ importantMark) = some ([], true) :=
        splitImportant?_append_mark IsTrimmed.nil fun a ha => absurd ha List.not_mem_nil
      rw [hnil, ← hsplit]
      exact congrArg splitImportant? (hmark.trim_prepend hspaces)
  · refine ⟨⟨.blank, [' ']⟩ :: ps ++ [⟨.blank, [' ']⟩, ⟨.word, importantMark⟩], ?_,
      ?_, ?_⟩
    · intro rest
      have hfield := cut_space_field h hps hnil (delimits_space (importantMark ++ ';' :: rest))
      have hblank : Cut ([' '] ++ (importantMark ++ ';' :: rest)) (blankRun [' '])
          (importantMark ++ ';' :: rest) := Cut.blanks_cons blank_of_mem_space (by decide) _
      rw [valueText, if_pos rfl, List.append_assoc]
      exact hfield.append (hblank.append (cut_importantMark rest))
    · intro d
      rw [← hps.kinds, List.map_append, depthBehind?_append]
      exact Option.bind_fun_some _
    · have hsplit := splitImportant?_append_mark h.trimmed blank_of_mem_space
      have htrimmed := h.trimmed.append hnil hmark (by decide) [' ']
      have hspells : spells (⟨.blank, [' ']⟩ :: ps ++ [⟨.blank, [' ']⟩, ⟨.word, importantMark⟩]) =
          [' '] ++ (value.toList ++ [' '] ++ importantMark) := by
        rw [spells_append, spells_cons, hps.spells, List.append_assoc, List.append_assoc]
        rfl
      rw [hspells, htrimmed.trim_prepend blank_of_mem_space]
      exact hsplit

end ClassRules
