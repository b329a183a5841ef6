import TensorLoom.Layout.Address
import TensorLoom.Proofs.Source.Grammar

/-!
# Address expressions are read as they are meant

Reading the text of an address expression gives back the operations it was written for. Each
operator meets operands that bind more closely: the operands of quotients and remainders and the
factors of products are names, numbers or in brackets, and the terms of a sum hold no sum that is
not (`IndexExpr.Readable`). From that the text is cut into the right tokens
(`IndexExpr.Readable.lexes`), the tokens are put together in the right way
(`IndexExpr.Readable.readTokens_eq`), and so the text has the value of the expression
(`IndexExpr.Readable.valueOfText_eq`).
-/

namespace TensorLoom

/-! ## Words -/

/-- A name that can stand for an index in a text: an identifier or a decimal literal. -/
inductive IsAtom : String → Prop
  | identifier {s : String} {c : Char} {rest : List Char} :
      s.toList = c :: rest → c.isDigit = false → (∀ d ∈ c :: rest, isWordChar d = true) → IsAtom s
  | literal (n : Nat) : IsAtom (toString n)

theorem isWordChar_of_isDigit {c : Char} (h : c.isDigit = true) : isWordChar c = true := by
  simp [isWordChar, Char.isAlphanum, h]

theorem goesOn_of_isWordChar {c : Char} (h : isWordChar c = true) : goesOn c = true := by
  simp [goesOn, h]

theorem isDigit_of_mem_toString {n : Nat} {c : Char} (h : c ∈ (toString n).toList) :
    c.isDigit = true := by
  rw [Nat.toString_eq_repr, Nat.toList_repr] at h
  exact Nat.isDigit_of_mem_toDigits (by decide) (by decide) h

/-- The digits of a number other than 0 do not start with 0. -/
theorem head_toDigits_ne {n : Nat} (hn : n ≠ 0) {c : Char} {rest : List Char}
    (h : Nat.toDigits 10 n = c :: rest) : c ≠ '0' := by
  induction n using Nat.strongRecOn generalizing rest with
  | ind n ih =>
    rw [Nat.toDigits_eq_if (by decide)] at h
    split at h
    · obtain ⟨rfl, -⟩ := List.cons.inj h
      exact mt Nat.digitChar_eq_zero.mp hn
    · obtain ⟨d, digits, hd⟩ :=
        List.exists_cons_of_ne_nil (Nat.toDigits_ne_nil (n := n / 10) (b := 10))
      rw [hd, List.cons_append] at h
      obtain ⟨rfl, -⟩ := List.cons.inj h
      exact ih (n / 10) (by omega) (by omega) hd

/-- A number is read back from its decimal digits. -/
theorem wordToken_toString (n : Nat) : wordToken (toString n).toList = some (.number n) := by
  have hdigits : ∀ c ∈ Nat.toDigits 10 n, c.isDigit = true := fun c hc =>
    Nat.isDigit_of_mem_toDigits (by decide) (by decide) hc
  rw [Nat.toString_eq_repr, Nat.toList_repr]
  by_cases h0 : n = 0
  · subst h0
    rfl
  obtain ⟨c, rest, hcons⟩ := List.exists_cons_of_ne_nil (Nat.toDigits_ne_nil (n := n) (b := 10))
  have hc := head_toDigits_ne h0 hcons
  have hvalue := Nat.ofDigitChars_ten_toDigits (n := n)
  rw [hcons] at hdigits hvalue ⊢
  have hrest : rest.all Char.isDigit = true :=
    List.all_eq_true.mpr fun d hd => hdigits d (List.mem_cons_of_mem _ hd)
  rw [wordToken, if_pos (hdigits c List.mem_cons_self), if_pos hrest, if_neg hc, hvalue]
  exact fun h => absurd h hc

/-- A text that may name something: a word that does not start with a digit. -/
structure IsIdentifier (s : String) : Prop where
  word : ∀ c ∈ s.toList, isWordChar c = true
  head : ∃ c rest, s.toList = c :: rest ∧ c.isDigit = false

namespace IsIdentifier

variable {s : String}

theorem append (h : IsIdentifier s) {t : String} (ht : ∀ c ∈ t.toList, isWordChar c = true) :
    IsIdentifier (s ++ t) where
  word c hc := by
    rw [String.toList_append] at hc
    exact (List.mem_append.mp hc).elim (h.word c) (ht c)
  head := by
    obtain ⟨c, rest, hs, hc⟩ := h.head
    exact ⟨c, rest ++ t.toList, by rw [String.toList_append, hs, List.cons_append], hc⟩

theorem numbered (h : IsIdentifier s) (n : Nat) : IsIdentifier (s ++ toString n) :=
  h.append fun _ hc => isWordChar_of_isDigit (isDigit_of_mem_toString hc)

theorem isAtom (h : IsIdentifier s) : IsAtom s := by
  obtain ⟨c, rest, hs, hc⟩ := h.head
  exact .identifier hs hc (hs ▸ h.word)

theorem wordToken_eq (h : IsIdentifier s) : wordToken s.toList = some (.name s) := by
  obtain ⟨c, rest, hs, hc⟩ := h.head
  have hname : String.ofList (c :: rest) = s := by rw [← hs, String.ofList_toList]
  have hword : (c :: rest).all isWordChar = true := List.all_eq_true.mpr (hs ▸ h.word)
  rw [hs, wordToken, if_neg (by simp [hc]), if_pos hword, hname]
  rintro rfl -
  exact absurd hc (by decide)

end IsIdentifier

theorem IsAtom.wordToken_eq {s : String} (h : IsAtom s) :
    wordToken s.toList = some (.name s) ∨ ∃ n : Nat, s = toString n ∧
      wordToken s.toList = some (.number n) := by
  cases h with
  | @identifier _ c rest hs hc hw =>
    exact .inl (IsIdentifier.wordToken_eq ⟨hs ▸ hw, c, rest, hs, hc⟩)
  | literal n => exact .inr ⟨n, rfl, wordToken_toString n⟩

/-! ## Marks -/

theorem not_goesOn_of_markToken {c : Char} {t : CToken} (h : markToken c = some t) :
    goesOn c = false ∧ c ≠ ' ' ∧ c ≠ '\n' := by
  have htable : markTokens.all (fun p => !goesOn p.1 && p.1 != ' ' && p.1 != '\n') = true := rfl
  obtain ⟨before, behind, hsplit, -⟩ := List.lookup_eq_some_iff.mp h
  have := List.all_eq_true.mp htable (c, t) (hsplit ▸ by simp)
  grind

/-- The second character of a longer mark is not part of a word, a bracket or a blank, and is a
minus sign only behind another one. -/
theorem isJoint_eq_false {c d : Char} (hd : goesOn d = true ∨ d ∈ ['(', '\x7d', ' ', '-'])
    (h : c = '-' → d ≠ '-') : isJoint c d = false := by
  have htable : jointMarks.all (fun p => !goesOn p.2 && !List.contains ['(', '\x7d', ' '] p.2 &&
      (p.2 != '-' || p.1 == '-')) = true := rfl
  rw [isJoint, ← Bool.not_eq_true, List.contains_iff_mem]
  intro hmem
  have := List.all_eq_true.mp htable _ hmem
  grind

/-- The marks that no longer mark begins with. -/
def IsFinal (c : Char) : Prop := ∀ d, isJoint c d = false

theorem isFinal_of_all {c : Char} (h : jointMarks.all (fun p => p.1 != c) = true) : IsFinal c := by
  intro d
  rw [isJoint, ← Bool.not_eq_true, List.contains_iff_mem]
  intro hmem
  have := List.all_eq_true.mp h _ hmem
  grind

/-- A mark that what comes behind does not go on with. -/
theorem tokens_cons {c : Char} {rest : List Char} (hc : goesOn c = false)
    (h : ∀ d tail, rest = d :: tail → isJoint c d = false) :
    tokens (lexemes (c :: rest)) = withMark c (tokens (lexemes rest)) := by
  rw [lexemes, if_neg (by simp [hc])]
  cases rest with
  | nil => rfl
  | cons d rest =>
    rw [lexemes]
    split
    · rw [tokens]
      split <;> simp
    · rw [tokens, h d rest rfl]
      rfl

theorem withMark_eq {c : Char} {t : CToken} (h : markToken c = some t) (ts : Option (List CToken)) :
    withMark c ts = ts.map (t :: ·) := by
  obtain ⟨-, hblank, hline⟩ := not_goesOn_of_markToken h
  rw [withMark, if_neg (by simp [hblank, hline]), h]
  cases ts <;> rfl

/-- A mark of two characters. -/
theorem tokens_joint {c d : Char} {t : CToken} (h : jointToken c d = some t) (rest : List Char) :
    tokens (lexemes (c :: d :: rest)) = (tokens (lexemes rest)).map (t :: ·) := by
  have htable : jointTokens.all (fun p => !goesOn p.1.1 && !goesOn p.1.2 &&
      isJoint p.1.1 p.1.2 && p.1.1 != '/') = true := rfl
  obtain ⟨before, behind, hsplit, -⟩ := List.lookup_eq_some_iff.mp h
  have := List.all_eq_true.mp htable ((c, d), t) (hsplit ▸ by simp)
  simp only [Bool.and_eq_true, Bool.not_eq_true', bne_iff_ne, ne_eq] at this
  obtain ⟨⟨⟨hc, hd⟩, hjoint⟩, hne⟩ := this
  rw [lexemes, if_neg (by simp [hc]), lexemes, if_neg (by simp [hd]), tokens, if_pos hjoint,
    if_neg (by simp [hne]), h]
  cases tokens (lexemes rest) <;> rfl

theorem tokens_blank (rest : List Char) :
    tokens (lexemes (' ' :: rest)) = tokens (lexemes rest) :=
  (tokens_cons rfl fun _ _ _ => isFinal_of_all rfl _).trans (if_pos (.inl rfl))

/-! ## Texts and their tokens -/

/-- A text that no word goes on into. -/
def Ends (rest : List Char) : Prop := ∀ c tail, rest = c :: tail → goesOn c = false

theorem ends_cons {c : Char} (h : goesOn c = false) (rest : List Char) : Ends (c :: rest) := by
  rintro _ _ ⟨⟩
  exact h

/-- A text is cut into tokens, whatever comes behind it, and no mark in front of it goes on into it.
-/
structure Lexes (cs : List Char) (ts : List CToken) : Prop where
  starts : ∃ c tail, cs = c :: tail ∧ (goesOn c = true ∨ c ∈ ['(', '\x7d', ' ', '-'])
  tokens_eq : ∀ rest, Ends rest → tokens (lexemes (cs ++ rest)) =
    (tokens (lexemes rest)).map (ts ++ ·)

theorem lexemes_word {letters rest : List Char} (hw : ∀ c ∈ letters, goesOn c = true)
    (hne : letters ≠ []) (hrest : Ends rest) :
    lexemes (letters ++ rest) = .word letters :: lexemes rest := by
  induction letters with
  | nil => exact absurd rfl hne
  | cons c letters ih =>
    rw [List.cons_append, lexemes, if_pos (hw c List.mem_cons_self)]
    cases letters with
    | nil =>
      cases rest with
      | nil => rfl
      | cons d rest => simp [lexemes, hrest d rest rfl]
    | cons d letters =>
      rw [ih (fun x hx => hw x (List.mem_cons_of_mem _ hx)) (List.cons_ne_nil _ _)]

theorem lexes_word {letters : List Char} {t : CToken} (hw : ∀ c ∈ letters, goesOn c = true)
    (ht : wordToken letters = some t) : Lexes letters [t] := by
  have hne : letters ≠ [] := by
    rintro rfl
    cases ht
  obtain ⟨c, tail, hcons⟩ := List.exists_cons_of_ne_nil hne
  refine ⟨⟨c, tail, hcons, .inl (hw c (hcons ▸ List.mem_cons_self))⟩, fun rest hrest => ?_⟩
  rw [lexemes_word hw hne hrest, tokens, ht]
  cases tokens (lexemes rest) <;> rfl

theorem lexes_number (n : Nat) : Lexes (toString n).toList [.number n] :=
  lexes_word
    (fun _ hc => goesOn_of_isWordChar (isWordChar_of_isDigit (isDigit_of_mem_toString hc)))
    (wordToken_toString n)

namespace Lexes

variable {a b : List Char} {ta tb : List CToken} {t : CToken} {c d : Char}

/-- A mark in front of a text that it does not go on into. -/
theorem tokens_mark (h : Lexes b tb) (hstart : c = '-' → b.head? ≠ some '-')
    (ht : markToken c = some t) {rest : List Char} (hrest : Ends rest) :
    tokens (lexemes (c :: (b ++ rest))) = (tokens (lexemes rest)).map (t :: tb ++ ·) := by
  obtain ⟨d, tail, rfl, hd⟩ := h.starts
  rw [tokens_cons (not_goesOn_of_markToken ht).1 fun _ _ hcons => ?_, withMark_eq ht,
    h.tokens_eq rest hrest, Option.map_map]
  · rfl
  · cases hcons
    refine isJoint_eq_false hd fun hc hminus => hstart hc ?_
    rw [hminus]
    rfl

/-- A mark between two texts. -/
theorem mark (ha : Lexes a ta) (ht : markToken c = some t) (hb : Lexes b tb)
    (hstart : c = '-' → b.head? ≠ some '-') : Lexes (a ++ c :: b) (ta ++ t :: tb) where
  starts := by
    obtain ⟨d, tail, rfl, hd⟩ := ha.starts
    exact ⟨d, tail ++ c :: b, rfl, hd⟩
  tokens_eq rest hrest := by
    rw [List.append_assoc, List.cons_append,
      ha.tokens_eq _ (ends_cons (not_goesOn_of_markToken ht).1 _), hb.tokens_mark hstart ht hrest,
      Option.map_map]
    simp [Function.comp_def]

/-- A mark of two characters between two texts. -/
theorem joint (ha : Lexes a ta) (hc : goesOn c = false) (ht : jointToken c d = some t)
    (hb : Lexes b tb) : Lexes (a ++ c :: d :: b) (ta ++ t :: tb) where
  starts := by
    obtain ⟨e, tail, rfl, he⟩ := ha.starts
    exact ⟨e, tail ++ c :: d :: b, rfl, he⟩
  tokens_eq rest hrest := by
    rw [List.append_assoc, List.cons_append, List.cons_append, ha.tokens_eq _ (ends_cons hc _),
      tokens_joint ht, hb.tokens_eq rest hrest, Option.map_map, Option.map_map]
    simp [Function.comp_def]

/-- A closing mark. -/
theorem closed (ha : Lexes a ta) (hfinal : IsFinal c) (ht : markToken c = some t) :
    Lexes (a ++ [c]) (ta ++ [t]) where
  starts := by
    obtain ⟨d, tail, rfl, hd⟩ := ha.starts
    exact ⟨d, tail ++ [c], rfl, hd⟩
  tokens_eq rest _ := by
    have hc := (not_goesOn_of_markToken ht).1
    rw [List.append_assoc, List.singleton_append, ha.tokens_eq _ (ends_cons hc _),
      tokens_cons hc fun d _ _ => hfinal d, withMark_eq ht, Option.map_map]
    simp [Function.comp_def]

theorem opened (ha : Lexes a ta) : Lexes ('(' :: a) (.opening :: ta) where
  starts := ⟨_, _, rfl, .inr (by simp)⟩
  tokens_eq _ hrest := ha.tokens_mark (by simp) rfl hrest

theorem bracketed (ha : Lexes a ta) : Lexes ('(' :: (a ++ [')'])) (.opening :: ta ++ [.closing]) :=
  ha.opened.closed (isFinal_of_all rfl) rfl

theorem negative (ha : Lexes a ta) (hstart : a.head? ≠ some '-') :
    Lexes ('-' :: a) (.operator .sub :: ta) where
  starts := ⟨_, _, rfl, .inr (by simp)⟩
  tokens_eq _ hrest := ha.tokens_mark (fun _ => hstart) rfl hrest

theorem blank_left (ha : Lexes a ta) : Lexes (' ' :: a) ta where
  starts := ⟨_, _, rfl, .inr (by simp)⟩
  tokens_eq rest hrest := by
    rw [List.cons_append, tokens_blank, ha.tokens_eq rest hrest]

theorem blank_right (ha : Lexes a ta) : Lexes (a ++ [' ']) ta where
  starts := by
    obtain ⟨d, tail, rfl, hd⟩ := ha.starts
    exact ⟨d, tail ++ [' '], rfl, hd⟩
  tokens_eq rest _ := by
    rw [List.append_assoc, List.singleton_append, ha.tokens_eq _ (ends_cons rfl _), tokens_blank]

end Lexes

/-- The digits of a number do not start with a sign. -/
theorem head?_toString_ne (n : Nat) : (toString n).toList.head? ≠ some '-' := by
  intro h
  have := isDigit_of_mem_toString (List.mem_of_head? h)
  revert this
  decide

/-! ## Tokens and their trees -/

/-- The tokens of a literal. -/
def literalTokens (n : Int) : List CToken :=
  if 0 ≤ n then [.number n.toNat] else [.operator .sub, .number (-n).toNat]

/-- What a literal is read as. -/
def literalTree (n : Int) : CExpr :=
  if 0 ≤ n then .number n.toNat else .negation (.number (-n).toNat)

theorem lexes_literal (n : Int) : Lexes (toString n).toList (literalTokens n) := by
  rw [Int.toString_eq_repr, Int.repr_eq_if]
  unfold literalTokens
  split
  · exact lexes_number _
  · rw [String.toList_append]
    exact (lexes_number _).negative (head?_toString_ne _)

theorem eval_literalTree (scope : CScope) (n : Int) :
    (literalTree n).eval scope = some (.int n) := by
  unfold literalTree
  split
  · simp only [CExpr.eval, Option.some.injEq, CValue.int.injEq]
    omega
  · simp only [CExpr.eval, CValue.negate, Option.bind_eq_bind, Option.bind_some, Option.pure_def,
      Option.some.injEq, CValue.int.injEq]
    omega

namespace IndexExpr

/-- The tokens of an expression. -/
def tokens : IndexExpr → List CToken
  | name s => (wordToken s.toList).toList
  | literal n => literalTokens n
  | scaled e stride => e.tokens ++ .operator .mul :: literalTokens stride
  | sum a b => a.tokens ++ .operator .add :: b.tokens
  | group e => .opening :: e.tokens ++ [.closing]
  | quotient e divisor => .opening :: (e.tokens ++ [.operator .div, .number divisor]) ++ [.closing]
  | remainder e divisor => .opening :: (e.tokens ++ [.operator .mod, .number divisor]) ++ [.closing]

/-- What an expression is read as. -/
def tree : IndexExpr → CExpr
  | name s => match wordToken s.toList with
    | some (.number n) => .number n
    | _ => .name s
  | literal n => literalTree n
  | scaled e stride => .binary .mul e.tree (literalTree stride)
  | sum a b => .binary .add a.tree b.tree
  | group e => e.tree
  | quotient e divisor => .binary .div e.tree (.number divisor)
  | remainder e divisor => .binary .mod e.tree (.number divisor)

/-- Where an expression may stand: as a factor, as a term of a sum, or as a sum. -/
inductive Place where
  | factor | term | sum

/-- An expression that needs no brackets in its place. -/
inductive Readable : Place → IndexExpr → Prop
  | name {s : String} : IsAtom s → Readable .factor (.name s)
  | literal (n : Nat) : Readable .factor (.literal n)
  | group {e : IndexExpr} : Readable .sum e → Readable .factor (.group e)
  | quotient {e : IndexExpr} (d : Nat) : Readable .factor e → Readable .factor (.quotient e d)
  | remainder {e : IndexExpr} (d : Nat) : Readable .factor e → Readable .factor (.remainder e d)
  | factor {e : IndexExpr} : Readable .factor e → Readable .term e
  | signed (n : Int) : Readable .term (.literal n)
  | scaled {e : IndexExpr} (stride : Int) : Readable .factor e → Readable .term (.scaled e stride)
  | term {e : IndexExpr} : Readable .term e → Readable .sum e
  | sum {a b : IndexExpr} : Readable .sum a → Readable .term b → Readable .sum (.sum a b)

end IndexExpr

theorem IsAtom.lexes {s : String} (h : IsAtom s) : Lexes s.toList (wordToken s.toList).toList := by
  have hw : ∀ c ∈ s.toList, isWordChar c = true := by
    cases h with
    | identifier hs _ hw => rwa [hs]
    | literal n => exact fun c hc => isWordChar_of_isDigit (isDigit_of_mem_toString hc)
  have hw := fun c hc => goesOn_of_isWordChar (hw c hc)
  rcases h.wordToken_eq with ht | ⟨n, -, ht⟩
  · rw [ht]
    exact lexes_word hw ht
  · rw [ht]
    exact lexes_word hw ht

namespace IsIdentifier

variable {s : String}

theorem lexes (h : IsIdentifier s) : Lexes s.toList [.name s] :=
  lexes_word (fun c hc => goesOn_of_isWordChar (h.word c hc)) h.wordToken_eq

/-- An identifier is not read as a number. -/
theorem tree_eq (h : IsIdentifier s) : (IndexExpr.name s).tree = .name s := by
  rw [IndexExpr.tree, h.wordToken_eq]

end IsIdentifier

namespace IndexExpr.Readable

variable {p : Place} {e : IndexExpr}

/-- The text of an expression is cut into its tokens. -/
theorem lexes (h : Readable p e) : Lexes e.text.toList e.tokens := by
  induction h with
  | name h => exact h.lexes
  | literal n => exact lexes_literal n
  | group _ ih => simpa [text, IndexExpr.tokens] using ih.bracketed
  | @quotient e d _ ih =>
    have := (ih.mark (c := '/') rfl (lexes_number d) (by simp)).bracketed
    simpa [text, IndexExpr.tokens] using this
  | @remainder e d _ ih =>
    have := (ih.mark (c := '%') rfl (lexes_number d) (by simp)).bracketed
    simpa [text, IndexExpr.tokens] using this
  | factor _ ih => exact ih
  | signed n => exact lexes_literal n
  | scaled stride _ ih =>
    have := ih.mark (c := '*') rfl (lexes_literal stride) (by simp)
    simpa [text, IndexExpr.tokens] using this
  | term _ ih => exact ih
  | sum _ _ iha ihb =>
    have := iha.mark (c := '+') rfl ihb (by simp)
    simpa [text, IndexExpr.tokens] using this

end IndexExpr.Readable

/-! ## Precedence -/

/-- Nothing that is pending binds as closely as a level. -/
def Loose (level : Nat) : List Pending → Prop
  | .negation :: _ => False
  | .cast :: _ => False
  | .operand _ op :: _ => op.level < level
  | .otherwise _ _ :: _ => 1 < level
  | _ => True

theorem complete_of_loose {level : Nat} {pending : List Pending} (h : Loose level pending)
    (e : CExpr) : complete level pending e = (pending, e) := by
  unfold complete
  split
  · exact h.elim
  · exact h.elim
  · rw [if_neg (Nat.not_le.mpr h)]
  · rw [if_neg (Nat.not_le.mpr h)]
  · rfl

theorem Loose.mono {level level' : Nat} {pending : List Pending} (h : Loose level pending)
    (hle : level ≤ level') : Loose level' pending := by
  unfold Loose at h ⊢
  split at h
  · exact h
  · exact h
  · exact Nat.lt_of_lt_of_le h hle
  · exact Nat.lt_of_lt_of_le h hle
  · trivial

/-- What may come behind an operand: anything that ends it, or an operator that binds no closer than
a level. -/
def EndsAt (level : Nat) : List CToken → Prop
  | .operator op :: _ => op.level ≤ level
  | .name _ :: _ => False
  | .number _ :: _ => False
  | .decimal _ _ :: _ => False
  | .opening :: _ => False
  | .openingIndex :: _ => False
  | _ => True

theorem EndsAt.mono {level level' : Nat} {ts : List CToken} (h : EndsAt level ts)
    (hle : level ≤ level') : EndsAt level' ts := by
  unfold EndsAt at h ⊢
  split at h
  · exact Nat.le_trans h hle
  all_goals first | exact h.elim | trivial

/-- It does not matter whether operators that bind more closely than what comes next have been
applied. -/
theorem readTokens_congr {level : Nat} {ts : List CToken} (hts : EndsAt level ts)
    (hlevel : 2 ≤ level) {pending pending' : List Pending} {e e' : CExpr}
    (h : ∀ l ≤ level, complete l pending e = complete l pending' e') :
    readTokens pending (some e) ts = readTokens pending' (some e') ts := by
  have h0 := h 0 (Nat.zero_le _)
  have h2 := h 2 hlevel
  cases ts with
  | nil => rw [readTokens, readTokens, h0]
  | cons t ts =>
    cases t with
    | operator op => rw [readTokens, readTokens, h op.level hts]
    | question => rw [readTokens, readTokens, h2]
    | colon => rw [readTokens, readTokens, h0]
    | comma => rw [readTokens, readTokens, h0]
    | closingIndex => rw [readTokens, readTokens, h0]
    | closing =>
      by_cases hopening : ∃ rest, ts = .opening :: rest
      · obtain ⟨rest, rfl⟩ := hopening
        rw [readTokens, readTokens, h0]
      · rw [readTokens, readTokens, h0]
        all_goals exact fun rest hrest => hopening ⟨rest, hrest⟩
    | name _ => exact hts.elim
    | number _ => exact hts.elim
    | decimal _ _ => exact hts.elim
    | opening => exact hts.elim
    | openingIndex => exact hts.elim
    | openingBlock => simp [readTokens]
    | closingBlock => simp [readTokens]
    | semicolon => simp [readTokens]
    | assign => simp [readTokens]
    | increment => simp [readTokens]

/-- A name that is neither called nor an array. -/
theorem readTokens_name (s : String) {ts : List CToken} (hts : EndsAt 6 ts)
    (pending : List Pending) : readTokens pending none (.name s :: ts) =
      readTokens pending (some (.name s)) ts := by
  cases ts with
  | nil => rw [readTokens] <;> simp
  | cons t ts =>
    cases t with
    | opening => exact hts.elim
    | openingIndex => exact hts.elim
    | _ => rw [readTokens] <;> simp

/-- A closing bracket that is not that of a type. -/
theorem readTokens_closing {ts : List CToken} (hts : EndsAt 6 ts) (pending : List Pending)
    (e : CExpr) : readTokens pending (some e) (.closing :: ts) =
      (close (complete 0 pending e)).bind fun r => readTokens r.1 (some r.2) ts := by
  rw [readTokens]
  · rfl
  · rintro rest rfl
    exact hts.elim

/-- A literal behind anything that is pending, at the end of a term. -/
theorem readTokens_literal {ts : List CToken} (hts : EndsAt 5 ts) (pending : List Pending)
    (n : Int) : readTokens pending none (literalTokens n ++ ts) =
      readTokens pending (some (literalTree n)) ts := by
  unfold literalTokens literalTree
  split
  · rfl
  · exact readTokens_congr hts (by decide) fun _ _ => rfl

/-- An operator behind an operand, if nothing that is pending binds as closely. -/
theorem readTokens_operator (op : COperator) {pending : List Pending} (h : Loose op.level pending)
    (e : CExpr) (ts : List CToken) : readTokens pending (some e) (.operator op :: ts) =
      readTokens (.operand e op :: pending) none ts := by
  rw [readTokens, complete_of_loose h]

/-! ## Operands -/

/-- Tokens are put together to an operand, whatever is pending in front of them. -/
def ReadsAs (ts : List CToken) (e : CExpr) : Prop :=
  ∀ pending rest, EndsAt 6 rest →
    readTokens pending none (ts ++ rest) = readTokens pending (some e) rest

namespace ReadsAs

variable {a b : List CToken} {x y : CExpr}

theorem name (s : String) : ReadsAs [.name s] (.name s) := fun pending _ hrest =>
  readTokens_name s hrest pending

theorem number (n : Nat) : ReadsAs [.number n] (.number n) := fun _ _ _ => rfl

theorem decimal (digits places : Nat) :
    ReadsAs [.decimal digits places] (.decimal digits places) := fun _ _ _ => rfl

/-- Brackets around an operator and its operands. -/
theorem bracketed (ha : ReadsAs a x) (op : COperator) (hb : ReadsAs b y) :
    ReadsAs (.opening :: (a ++ .operator op :: b) ++ [.closing]) (.binary op x y) := by
  intro pending rest hrest
  have hlevel : op.level ≤ 6 := by cases op <;> decide
  rw [List.append_assoc, List.cons_append, List.append_assoc, List.cons_append, readTokens,
    ha _ (.operator op :: _) hlevel,
    readTokens_operator op (show Loose op.level (.bracket :: pending) from trivial), List.singleton_append, hb _ (.closing :: _) trivial, readTokens_closing hrest]
  rw [complete, if_pos (Nat.zero_le _)]
  rfl

end ReadsAs

namespace IndexExpr

/-- What has to be pending in front of an expression, and what may come behind it. -/
def Place.Fits (pending : List Pending) (ts : List CToken) : Place → Prop
  | .factor => EndsAt 6 ts
  | .term => Loose 6 pending ∧ EndsAt 5 ts
  | .sum => Loose 5 pending ∧ EndsAt 5 ts

/-- The tokens of an expression are put together to its tree. -/
theorem Readable.readTokens_eq {p : Place} {e : IndexExpr} (h : Readable p e)
    {pending : List Pending} {ts : List CToken} (hp : p.Fits pending ts) :
    readTokens pending none (e.tokens ++ ts) = readTokens pending (some e.tree) ts := by
  induction h generalizing pending ts with
  | @name s hs =>
    rcases hs.wordToken_eq with ht | ⟨n, -, ht⟩
    · rw [tokens, tree, ht]
      exact readTokens_name s hp pending
    · rw [tokens, tree, ht]
      rfl
  | literal n =>
    rw [tokens, tree, literalTokens, literalTree, if_pos (Int.natCast_nonneg n),
      if_pos (Int.natCast_nonneg n)]
    rfl
  | @group e _ ih =>
    have htokens : (IndexExpr.group e).tokens ++ ts = .opening :: (e.tokens ++ .closing :: ts) := by
      simp [tokens]
    have hopen : Loose 5 (.bracket :: pending) := trivial
    have hends : EndsAt 5 (.closing :: ts) := trivial
    rw [htokens, readTokens, ih ⟨hopen, hends⟩, readTokens_closing hp]
    rfl
  | @quotient e d _ ih => exact ReadsAs.bracketed (fun _ _ => ih) .div (.number d) _ _ hp
  | @remainder e d _ ih => exact ReadsAs.bracketed (fun _ _ => ih) .mod (.number d) _ _ hp
  | factor _ ih => exact ih (hp.2.mono (by decide))
  | signed n => exact readTokens_literal hp.2 pending n
  | @scaled e stride _ ih =>
    obtain ⟨hloose, hends⟩ := hp
    have hmul : Place.Fits pending (.operator .mul :: (literalTokens stride ++ ts)) .factor :=
      Nat.le_refl 6
    rw [tokens, tree, List.append_assoc, List.cons_append, ih hmul,
      readTokens_operator .mul hloose, readTokens_literal hends]
    refine readTokens_congr hends (by decide) fun level hlevel => ?_
    rw [complete, if_pos (show level ≤ COperator.mul.level from Nat.le_succ_of_le hlevel)]
  | term _ ih => exact ih ⟨hp.1.mono (by decide), hp.2⟩
  | @sum a b _ _ iha ihb =>
    obtain ⟨hloose, hends⟩ := hp
    have hadd : EndsAt 5 (.operator .add :: (b.tokens ++ ts)) := Nat.le_refl 5
    have hopen : Loose 6 (.operand a.tree .add :: pending) := Nat.lt_succ_self 5
    rw [tokens, tree, List.append_assoc, List.cons_append,
      iha ⟨hloose, hadd⟩, readTokens_operator .add hloose,
      ihb ⟨hopen, hends⟩]
    refine readTokens_congr hends (by decide) fun level hlevel => ?_
    rw [complete, if_pos (show level ≤ COperator.add.level from hlevel)]

theorem Readable.readsAs {e : IndexExpr} (h : Readable .factor e) : ReadsAs e.tokens e.tree :=
  fun _ _ => h.readTokens_eq

/-- The tree of an expression has its value, if every number that stands for an index has its own.
-/
theorem Readable.eval_tree {p : Place} {e : IndexExpr} (h : Readable p e) {scope : CScope}
    (hnames : ∀ (n : Nat) v, scope.ints (toString n) = some v → v = n) {v : Int}
    (hv : e.eval scope.ints = some v) : e.tree.eval scope = some (.int v) := by
  induction h generalizing v with
  | @name s hs =>
    rw [IndexExpr.eval] at hv
    rcases hs.wordToken_eq with ht | ⟨n, rfl, ht⟩
    · simp [tree, ht, CExpr.eval, CScope.value, hv]
    · rw [tree, ht, hnames n v hv]
      rfl
  | literal n =>
    cases hv
    exact eval_literalTree scope n
  | group _ ih => exact ih hv
  | @quotient e d _ ih =>
    obtain ⟨n, hn, hv⟩ := Option.bind_eq_some_iff.mp hv
    by_cases hd : d = 0
    · simp [hd] at hv
    rw [if_neg hd] at hv
    cases hv
    simp [tree, CExpr.eval, CValue.apply, COperator.apply, ih hn, hd]
  | @remainder e d _ ih =>
    obtain ⟨n, hn, hv⟩ := Option.bind_eq_some_iff.mp hv
    by_cases hd : d = 0
    · simp [hd] at hv
    rw [if_neg hd] at hv
    cases hv
    simp [tree, CExpr.eval, CValue.apply, COperator.apply, ih hn, hd]
  | factor _ ih => exact ih hv
  | signed n =>
    cases hv
    exact eval_literalTree scope n
  | scaled stride _ ih =>
    obtain ⟨n, hn, hv⟩ := Option.bind_eq_some_iff.mp hv
    cases hv
    simp [tree, CExpr.eval, CValue.apply, COperator.apply, ih hn, eval_literalTree]
  | term _ ih => exact ih hv
  | sum _ _ iha ihb =>
    obtain ⟨m, hm, hv⟩ := Option.bind_eq_some_iff.mp hv
    obtain ⟨n, hn, hv⟩ := Option.bind_eq_some_iff.mp hv
    cases hv
    simp [tree, CExpr.eval, CValue.apply, COperator.apply, iha hm, ihb hn]

end IndexExpr

/-- A text that is cut into some tokens is read as what they are put together to. -/
theorem Lexes.read_eq {text : String} {ts : List CToken} (h : Lexes text.toList ts) :
    CExpr.read text = readTokens [] none ts := by
  have := h.tokens_eq [] (by rintro _ _ ⟨⟩)
  rw [List.append_nil] at this
  rw [CExpr.read, this]
  simp [lexemes, TensorLoom.tokens]

open IndexExpr (Readable)

variable {names : Names}

/-- Tokens of an operand are read as it. -/
theorem ReadsAs.readTokens_eq {ts : List CToken} {e : CExpr} (h : ReadsAs ts e) :
    readTokens [] none ts = some e := by
  have := h [] [] trivial
  rw [List.append_nil] at this
  rw [this]
  rfl

/-- The text of an expression is read as its tree. -/
theorem IndexExpr.Readable.read_text {e : IndexExpr} (h : Readable .factor e) :
    CExpr.read e.text = some e.tree := by
  rw [h.lexes.read_eq, h.readsAs.readTokens_eq]

/-- The text of an expression has its value. -/
theorem IndexExpr.Readable.valueOfText_eq {e : IndexExpr} (h : Readable .factor e)
    (hnames : ∀ (n : Nat) v, names (toString n) = some v → v = n) {v : Int}
    (hv : e.eval names = some v) : valueOfText names e.text = some v := by
  have htree : e.tree.eval (.ofNames names) = some (.int v) := h.eval_tree hnames hv
  rw [valueOfText, h.read_text, Option.bind_eq_bind, Option.bind_some, htree]
  rfl

end TensorLoom
