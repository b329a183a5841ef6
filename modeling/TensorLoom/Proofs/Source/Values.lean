import TensorLoom.Proofs.Source.Rendering

/-!
# Floating-point values are read as they are meant

A generated value is written with a bracket around every operator, so its text is cut into the right
tokens (`Value.Readable.lexes`) and these are put together to the right expression wherever an
operand may stand (`Value.Readable.readsAs`). The expression has the value of what it was written
for, if the names stand for the inputs, the indices and the accumulators
(`Value.Readable.eval_tree`).
-/

namespace TensorLoom

/-! ## Brackets of calls, elements and guards -/

namespace ReadsAs

variable {a b c : List CToken} {x y z : CExpr}

theorem negated (ha : ReadsAs a x) :
    ReadsAs (.opening :: .operator .sub :: a ++ [.closing]) (.negation x) := by
  intro pending rest hrest
  rw [List.append_assoc, List.cons_append, List.cons_append, readTokens, readTokens,
    List.singleton_append, ha _ (.closing :: rest) trivial, readTokens_closing hrest]
  rfl

theorem call (f : String) (ha : ReadsAs a x) :
    ReadsAs (.name f :: .opening :: a ++ [.closing]) (.call f x) := by
  intro pending rest hrest
  rw [List.append_assoc, List.cons_append, List.cons_append, readTokens, List.singleton_append,
    ha _ (.closing :: rest) trivial, readTokens_closing hrest]
  rfl

theorem call2 (f : String) (ha : ReadsAs a x) (hb : ReadsAs b y) :
    ReadsAs (.name f :: .opening :: a ++ .comma :: b ++ [.closing]) (.call2 f x y) := by
  intro pending rest hrest
  rw [List.append_assoc, List.append_assoc, List.cons_append, List.cons_append, List.cons_append,
    readTokens, ha _ (.comma :: _) trivial, readTokens]
  show readTokens (.callSecond f x :: pending) none _ = _
  rw [List.singleton_append, hb _ (.closing :: rest) trivial, readTokens_closing hrest]
  rfl

theorem element (array : String) (ha : ReadsAs a x) :
    ReadsAs (.name array :: .openingIndex :: a ++ [.closingIndex]) (.element array x) := by
  intro pending rest _
  rw [List.append_assoc, List.cons_append, List.cons_append, readTokens, List.singleton_append,
    ha _ (.closingIndex :: rest) trivial, readTokens]
  rfl

/-- A conversion binds as closely as anything that may come behind it. -/
theorem converted (op : COperator) (ha : ReadsAs a x) (hb : ReadsAs b y) :
    ReadsAs (.opening :: .name "float" :: .closing :: .opening :: (a ++ .operator op :: b) ++
      [.closing]) (.cast (.binary op x y)) := by
  intro pending rest hrest
  have hlevel : op.level ≤ 6 := by cases op <;> decide
  have htype : readTokens (.bracket :: pending) (some (.name "float"))
      (.closing :: .opening :: (a ++ .operator op :: b ++ .closing :: rest)) =
      readTokens (.bracket :: .cast :: pending) none
        (a ++ .operator op :: b ++ .closing :: rest) := by
    rw [readTokens]
    rfl
  have htokens : (.opening :: .name "float" :: .closing :: .opening ::
      (a ++ .operator op :: b) ++ [.closing] : List CToken) ++ rest =
      .opening :: .name "float" :: .closing :: .opening ::
        (a ++ .operator op :: b ++ .closing :: rest) := by simp
  rw [htokens, readTokens, readTokens_name "float" (show EndsAt 6 (.closing :: _) from trivial),
    htype, List.append_assoc, List.cons_append, ha _ (.operator op :: _) hlevel,
    readTokens_operator op (show Loose op.level (.bracket :: .cast :: pending) from trivial),
    hb _ (.closing :: rest) trivial, readTokens_closing hrest]
  rw [complete, if_pos (Nat.zero_le _)]
  exact readTokens_congr hrest (by decide) fun _ _ => rfl

/-- One more condition behind others. -/
theorem conjunction {e : CExpr} {pending : List Pending} (hloose : Loose 2 pending)
    (hb : ReadsAs b y) {rest : List CToken} (hrest : EndsAt 2 rest) :
    readTokens pending (some e) (.operator .and :: b ++ rest) =
      readTokens pending (some (.binary .and e y)) rest := by
  rw [List.cons_append, readTokens_operator .and hloose, hb _ rest (hrest.mono (by decide))]
  refine readTokens_congr hrest (by decide) fun level hlevel => ?_
  rw [complete, if_pos (show level ≤ COperator.and.level from hlevel)]

end ReadsAs

/-! ## Conditions -/

namespace Condition

/-- The tokens of a condition and of those behind it. -/
def allTokens (first : Condition) (rest : List Condition) : List CToken :=
  first.tokens ++ rest.flatMap fun c => .operator .and :: c.tokens

/-- What a condition and those behind it are read as. -/
def allTree (first : Condition) (rest : List Condition) : CExpr :=
  rest.foldl (fun e c => .binary .and e c.tree) first.tree

variable {first : Condition} {rest : List Condition}

theorem lexes_all (hfirst : first.Readable) (hrest : ∀ c ∈ rest, c.Readable) :
    Lexes (" && ".intercalate ((first :: rest).map text)).toList (allTokens first rest) := by
  induction rest generalizing first with
  | nil => simpa [allTokens] using hfirst.lexes
  | cons c rest ih =>
    have := hfirst.lexes.blank_right.joint (c := '&') (d := '&') rfl rfl
      (ih (hrest c List.mem_cons_self) fun d hd => hrest d (List.mem_cons_of_mem _ hd)).blank_left
    have htext : " && ".toList = [' ', '&', '&', ' '] := rfl
    simpa [allTokens, String.intercalate_cons_cons, htext] using this

theorem readTokens_rest (hrest : ∀ c ∈ rest, c.Readable) {pending : List Pending}
    (hloose : Loose 2 pending) (e : CExpr) {ts : List CToken} (hts : EndsAt 2 ts) :
    readTokens pending (some e) (rest.flatMap (fun c => .operator .and :: c.tokens) ++ ts) =
      readTokens pending (some (rest.foldl (fun e c => .binary .and e c.tree) e)) ts := by
  induction rest generalizing e with
  | nil => rfl
  | cons c rest ih =>
    have hends : EndsAt 2 (rest.flatMap (fun c => .operator .and :: c.tokens) ++ ts) := by
      cases rest with
      | nil => exact hts
      | cons => exact Nat.le_refl 2
    rw [List.flatMap_cons, List.append_assoc,
      ReadsAs.conjunction hloose (hrest c List.mem_cons_self).readsAs hends]
    exact ih (fun d hd => hrest d (List.mem_cons_of_mem _ hd)) _

/-- A choice by conditions, in brackets like the conditions. -/
theorem readsAs_guarded (hfirst : first.Readable) (hrest : ∀ c ∈ rest, c.Readable)
    {a b : List CToken} {x y : CExpr} (ha : ReadsAs a x) (hb : ReadsAs b y) :
    ReadsAs (.opening :: .opening :: allTokens first rest ++ .closing :: .question :: a ++
      .colon :: b ++ [.closing]) (.choice (allTree first rest) x y) := by
  intro pending ts hts
  have hconditions : readTokens (.bracket :: .bracket :: pending) none (allTokens first rest ++
      .closing :: .question :: (a ++ .colon :: (b ++ .closing :: ts))) =
      readTokens (.bracket :: .bracket :: pending) (some (allTree first rest))
        (.closing :: .question :: (a ++ .colon :: (b ++ .closing :: ts))) := by
    have hends : EndsAt 6 (rest.flatMap (fun c => .operator .and :: c.tokens) ++
        .closing :: .question :: (a ++ .colon :: (b ++ .closing :: ts))) := by
      cases rest with
      | nil => trivial
      | cons => exact show 2 ≤ 6 by decide
    rw [allTokens, List.append_assoc, hfirst.readsAs _ _ hends]
    exact readTokens_rest hrest (show Loose 2 (.bracket :: _) from trivial) _ trivial
  have htokens : (.opening :: .opening :: allTokens first rest ++ .closing :: .question :: a ++
      .colon :: b ++ [.closing] : List CToken) ++ ts = .opening :: .opening ::
        (allTokens first rest ++
          .closing :: .question :: (a ++ .colon :: (b ++ .closing :: ts))) := by simp
  rw [htokens, readTokens, readTokens, hconditions,
    readTokens_closing (show EndsAt 6 (.question :: _) from trivial)]
  show readTokens (.bracket :: pending) (some (allTree first rest)) (.question :: _) = _
  rw [readTokens]
  show readTokens (.condition (allTree first rest) :: .bracket :: pending) none _ = _
  rw [ha _ (.colon :: _) trivial, readTokens]
  show readTokens (.otherwise (allTree first rest) x :: .bracket :: pending) none _ = _
  rw [hb _ (.closing :: _) trivial, readTokens_closing hts]
  rfl

/-- The conditions have the value 1 if all of them hold and 0 if one fails. -/
theorem eval_allTree (hfirst : first.Readable) (hrest : ∀ c ∈ rest, c.Readable) {scope : CScope}
    (hnames : ∀ (n : Nat) v, scope.ints (toString n) = some v → v = n) {b : Bool}
    (hb : evalAll scope.ints (first :: rest) = some b) :
    (allTree first rest).eval scope = some (.int (if b then 1 else 0)) := by
  have hfold : ∀ (e : CExpr) (holds : Bool), e.eval scope = some (.int (if holds then 1 else 0)) →
      (do if holds then evalAll scope.ints rest else return false) = some b →
      (rest.foldl (fun e c => .binary .and e c.tree) e).eval scope =
        some (.int (if b then 1 else 0)) := by
    clear hb
    induction rest with
    | nil =>
      intro e holds he hb
      cases holds <;> cases hb <;> exact he
    | cons c rest ih =>
      intro e holds he hb
      have ih := ih fun d hd => hrest d (List.mem_cons_of_mem _ hd)
      cases holds with
      | false => exact ih _ false (by simp [CExpr.eval, he, CValue.truth]) hb
      | true =>
        obtain ⟨holds, hc, hb⟩ := Option.bind_eq_some_iff.mp hb
        refine ih _ holds ?_ hb
        have hc := (hrest c List.mem_cons_self).eval_tree hnames hc
        cases holds <;> simp [CExpr.eval, he, hc, CValue.truth]
  obtain ⟨holds, hc, hb⟩ := Option.bind_eq_some_iff.mp hb
  exact hfold _ holds (hfirst.eval_tree hnames hc) hb

end Condition

/-! ## Names and elements -/

theorem isIdentifier_accumulatorName (k : Nat) : IsIdentifier (accumulatorName k) :=
  IsIdentifier.numbered ⟨List.all_eq_true.mp rfl, 'a', _, rfl, rfl⟩ k

theorem isIdentifier_bufferParameter (number : Nat) : IsIdentifier (bufferParameter number) :=
  IsIdentifier.numbered ⟨List.all_eq_true.mp rfl, 'd', _, rfl, rfl⟩ number

/-- A word and its token, which both are computed. -/
theorem lexes_literalWord {letters : List Char} {t : CToken} (hw : letters.all goesOn = true)
    (ht : wordToken letters = some t) : Lexes letters [t] :=
  lexes_word (List.all_eq_true.mp hw) ht

theorem lexes_zero : Lexes "0.0f".toList [.decimal 0 1] := lexes_literalWord rfl rfl

/-- The tokens of an element of a buffer. -/
def elementTokens (number : Nat) (position : IndexExpr) : List CToken :=
  .name (bufferParameter number) :: .openingIndex :: position.tokens ++ [.closingIndex]

/-- What an element of a buffer is read as. -/
def elementTree (number : Nat) (position : IndexExpr) : CExpr :=
  .element (bufferParameter number) position.tree

theorem lexes_element (number : Nat) {position : IndexExpr} (h : position.Readable .factor) :
    Lexes (elementText number position).toList (elementTokens number position) := by
  have := ((isIdentifier_bufferParameter number).lexes.mark (c := '[') rfl h.lexes
    (by simp)).closed (c := ']') (isFinal_of_all rfl) rfl
  simpa [elementText, elementTokens] using this

theorem readsAs_element (number : Nat) {position : IndexExpr} (h : position.Readable .factor) :
    ReadsAs (elementTokens number position) (elementTree number position) :=
  h.readsAs.element _

/-! ## Operations -/

namespace Unary

/-- The tokens of an operation on an operand. -/
def tokens (op : Unary) (x : List CToken) : List CToken :=
  match op with
  | .noop => x
  | .neg => .opening :: .operator .sub :: x ++ [.closing]
  | .relu => .name "max" :: .opening :: x ++ .comma :: [.decimal 0 1] ++ [.closing]
  | .exp => .name "exp" :: .opening :: x ++ [.closing]
  | .log => .name "log" :: .opening :: x ++ [.closing]
  | .sign => .name "sign" :: .opening :: x ++ [.closing]
  | .reciprocal => .opening :: ([.decimal 10 1] ++ .operator .div :: x) ++ [.closing]

/-- What an operation is read as. -/
def tree (op : Unary) (x : CExpr) : CExpr :=
  match op with
  | .noop => x
  | .neg => .negation x
  | .relu => .call2 "max" x (.decimal 0 1)
  | .exp => .call "exp" x
  | .log => .call "log" x
  | .sign => .call "sign" x
  | .reciprocal => .binary .div (.decimal 10 1) x

variable {x : String} {ts : List CToken} {e : CExpr} {scope : CScope}

theorem lexes_call {f : String} (hf : Lexes f.toList [.name f]) (hx : Lexes x.toList ts) :
    Lexes (f ++ "(" ++ x ++ ")").toList (.name f :: .opening :: ts ++ [.closing]) := by
  have := (hf.mark (c := '(') rfl hx (by simp)).closed (c := ')') (isFinal_of_all rfl) rfl
  simpa [String.toList_append] using this

theorem lexes (op : Unary) (hx : Lexes x.toList ts) (hstart : x.toList.head? ≠ some '-') :
    Lexes (op.sourceText x).toList (op.tokens ts) := by
  cases op with
  | noop => exact hx
  | neg =>
    have := (hx.negative hstart).bracketed
    simpa [sourceText, tokens, String.toList_append] using this
  | relu =>
    have hmax : Lexes "max".toList [.name "max"] := lexes_literalWord rfl rfl
    have := ((hmax.mark (c := '(') rfl hx (by simp)).mark (c := ',') rfl lexes_zero.blank_left
      (by simp)).closed (c := ')') (isFinal_of_all rfl) rfl
    simpa [sourceText, tokens, String.toList_append] using this
  | exp => exact lexes_call (f := "exp") (lexes_literalWord rfl rfl) hx
  | log => exact lexes_call (f := "log") (lexes_literalWord rfl rfl) hx
  | sign => exact lexes_call (f := "sign") (lexes_literalWord rfl rfl) hx
  | reciprocal =>
    have hone : Lexes "1.0f".toList [.decimal 10 1] := lexes_literalWord rfl rfl
    have := (hone.mark (c := '/') rfl hx (by simp)).bracketed
    simpa [sourceText, tokens, String.toList_append] using this

theorem readsAs (op : Unary) (hx : ReadsAs ts e) : ReadsAs (op.tokens ts) (op.tree e) := by
  cases op with
  | noop => exact hx
  | neg => exact hx.negated
  | relu => exact hx.call2 "max" (.decimal 0 1)
  | exp => exact hx.call "exp"
  | log => exact hx.call "log"
  | sign => exact hx.call "sign"
  | reciprocal => exact (ReadsAs.decimal 10 1).bracketed .div hx

theorem eval_tree (op : Unary) {v : Float32} (he : e.eval scope = some (.float v)) :
    (op.tree e).eval scope = some (.float (op.apply v)) := by
  cases op with
  | noop => exact he
  | neg => simp [tree, CExpr.eval, he, CValue.negate, apply]
  | relu =>
    have hzero : Float32.ofScientific 0 true 1 = 0 := by decide +kernel
    simp [tree, CExpr.eval, he, CValue.call2, apply, hzero]
  | exp => simp [tree, CExpr.eval, he, CScope.call]
  | log => simp [tree, CExpr.eval, he, CScope.call]
  | sign => simp [tree, CExpr.eval, he, CScope.call]
  | reciprocal =>
    have hone : Float32.ofScientific 10 true 1 = 1 := by decide +kernel
    simp [tree, CExpr.eval, he, CValue.apply, COperator.applyFloat, apply, hone]

end Unary

namespace Binary

/-- The tokens of an operation on operands. -/
def tokens (op : Binary) (a b : List CToken) : List CToken :=
  match op with
  | .add => .opening :: (a ++ .operator .add :: b) ++ [.closing]
  | .sub => .opening :: (a ++ .operator .sub :: b) ++ [.closing]
  | .mul => .opening :: (a ++ .operator .mul :: b) ++ [.closing]
  | .div => .opening :: (a ++ .operator .div :: b) ++ [.closing]
  | .pow => .name "pow" :: .opening :: a ++ .comma :: b ++ [.closing]
  | .cmpEq => .opening :: .name "float" :: .closing :: .opening :: (a ++ .operator .eq :: b) ++
      [.closing]

/-- What an operation is read as. -/
def tree (op : Binary) (a b : CExpr) : CExpr :=
  match op with
  | .add => .binary .add a b
  | .sub => .binary .sub a b
  | .mul => .binary .mul a b
  | .div => .binary .div a b
  | .pow => .call2 "pow" a b
  | .cmpEq => .cast (.binary .eq a b)

variable {a b : String} {ta tb : List CToken} {x y : CExpr} {scope : CScope}

theorem lexes_bracketed (ha : Lexes a.toList ta) (hb : Lexes b.toList tb)
    (hstart : b.toList.head? ≠ some '-') {c : Char} {op : COperator}
    (ht : markToken c = some (.operator op)) :
    Lexes ("(" ++ a ++ String.singleton c ++ b ++ ")").toList
      (.opening :: (ta ++ .operator op :: tb) ++ [.closing]) := by
  have := (ha.mark ht hb fun _ => hstart).bracketed
  simpa [String.toList_append] using this

theorem lexes (op : Binary) (ha : Lexes a.toList ta) (hb : Lexes b.toList tb)
    (hstart : b.toList.head? ≠ some '-') : Lexes (op.sourceText a b).toList (op.tokens ta tb) := by
  cases op with
  | add => exact lexes_bracketed ha hb hstart (c := '+') rfl
  | sub => exact lexes_bracketed ha hb hstart (c := '-') rfl
  | mul => exact lexes_bracketed ha hb hstart (c := '*') rfl
  | div => exact lexes_bracketed ha hb hstart (c := '/') rfl
  | pow =>
    have hpow : Lexes "pow".toList [.name "pow"] := lexes_literalWord rfl rfl
    have := ((hpow.mark (c := '(') rfl ha (by simp)).mark (c := ',') rfl hb.blank_left
      (by simp)).closed (c := ')') (isFinal_of_all rfl) rfl
    simpa [sourceText, tokens, String.toList_append] using this
  | cmpEq =>
    have hfloat : Lexes "float".toList [.name "float"] := lexes_literalWord rfl rfl
    have := hfloat.opened.mark (c := ')') rfl
      (ha.joint (c := '=') (d := '=') rfl rfl hb).bracketed (by simp)
    simpa [sourceText, tokens, String.toList_append] using this

theorem readsAs (op : Binary) (ha : ReadsAs ta x) (hb : ReadsAs tb y) :
    ReadsAs (op.tokens ta tb) (op.tree x y) := by
  cases op with
  | add => exact ha.bracketed .add hb
  | sub => exact ha.bracketed .sub hb
  | mul => exact ha.bracketed .mul hb
  | div => exact ha.bracketed .div hb
  | pow => exact ha.call2 "pow" hb
  | cmpEq => exact ha.converted .eq hb

theorem eval_tree (op : Binary) {v w : Float32} (hx : x.eval scope = some (.float v))
    (hy : y.eval scope = some (.float w)) :
    (op.tree x y).eval scope = some (.float (op.apply v w)) := by
  cases op with
  | cmpEq =>
    simp only [tree, CExpr.eval, hx, hy, CValue.apply, COperator.applyFloat, CValue.convert, apply]
    by_cases h : v == w
    · simp [h]
      rfl
    · simp [h]
      rfl
  | pow => simp [tree, CExpr.eval, hx, hy, CValue.call2]
  | _ => simp [tree, CExpr.eval, hx, hy, CValue.apply, COperator.applyFloat, apply]

end Binary

/-! ## Values -/

namespace Value

/-- A value whose text is read as it is meant: its addresses are. -/
def Readable : Value → Prop
  | zero => True
  | load _ address => address.Readable
  | accumulator _ => True
  | unary _ x => x.Readable
  | binary _ a b => a.Readable ∧ b.Readable

/-- The tokens of a value. -/
def tokens : Value → List CToken
  | zero => [.decimal 0 1]
  | load number ⟨position, []⟩ => elementTokens number position
  | load number ⟨position, first :: rest⟩ =>
    .opening :: .opening :: Condition.allTokens first rest ++ .closing :: .question ::
      elementTokens number position ++ .colon :: [.decimal 0 1] ++ [.closing]
  | accumulator k => [.name (accumulatorName k)]
  | unary op x => op.tokens x.tokens
  | binary op a b => op.tokens a.tokens b.tokens

/-- What a value is read as. -/
def tree : Value → CExpr
  | zero => .decimal 0 1
  | load number ⟨position, []⟩ => elementTree number position
  | load number ⟨position, first :: rest⟩ =>
    .choice (Condition.allTree first rest) (elementTree number position) (.decimal 0 1)
  | accumulator k => .name (accumulatorName k)
  | unary op x => op.tree x.tree
  | binary op a b => op.tree a.tree b.tree

/-- No text of a value starts with a sign. -/
theorem head?_text_ne (v : Value) : v.text.toList.head? ≠ some '-' := by
  induction v with
  | zero => decide
  | load number address =>
    obtain ⟨position, conditions⟩ := address
    cases conditions with
    | nil => simp [text, elementText, bufferParameter, toString]
    | cons => simp [text]
  | accumulator k => simp [text, accumulatorName, toString]
  | unary op x ih => cases op <;> simp [text, Unary.sourceText, ih]
  | binary op a b _ _ => cases op <;> simp [text, Binary.sourceText]

namespace Readable

variable {v : Value}

/-- The text of a value is cut into its tokens. -/
theorem lexes (h : v.Readable) : Lexes v.text.toList v.tokens := by
  induction v with
  | zero => exact lexes_zero
  | load number address =>
    obtain ⟨hposition, hconditions⟩ := h
    obtain ⟨position, conditions⟩ := address
    cases conditions with
    | nil => exact lexes_element number hposition
    | cons first rest =>
      have hall := (Condition.lexes_all (hconditions first List.mem_cons_self) fun c hc =>
        hconditions c (List.mem_cons_of_mem _ hc)).bracketed
      have := ((hall.blank_right.mark (c := '?') rfl (lexes_element number hposition).blank_left
        (by simp)).blank_right.mark (c := ':') rfl lexes_zero.blank_left (by simp)).bracketed
      simpa [text, tokens] using this
  | accumulator k => exact (isIdentifier_accumulatorName k).lexes
  | unary op x ih => exact op.lexes (ih h) x.head?_text_ne
  | binary op a b iha ihb => exact op.lexes (iha h.1) (ihb h.2) b.head?_text_ne

/-- Its tokens are put together to its tree. -/
theorem readsAs (h : v.Readable) : ReadsAs v.tokens v.tree := by
  induction v with
  | zero => exact .decimal 0 1
  | load number address =>
    obtain ⟨hposition, hconditions⟩ := h
    obtain ⟨position, conditions⟩ := address
    cases conditions with
    | nil => exact readsAs_element number hposition
    | cons first rest =>
      exact Condition.readsAs_guarded (hconditions first List.mem_cons_self)
        (fun c hc => hconditions c (List.mem_cons_of_mem _ hc)) (readsAs_element number hposition)
        (.decimal 0 1)
  | accumulator k => exact .name _
  | unary op x ih => exact op.readsAs (ih h)
  | binary op a b iha ihb => exact op.readsAs (iha h.1) (ihb h.2)

end Readable

end Value

/-- What the names of a program stand for: numbers for themselves, the accumulators for their values
and the parameters behind the first one for the inputs. -/
structure CScope.Holds (scope : CScope) (data : List (Array Float32))
    (accumulators : List Float32) : Prop where
  numerals : ∀ (n : Nat) v, scope.ints (toString n) = some v → v = n
  accumulators : ∀ k x, accumulators[k]? = some x →
    scope.value (accumulatorName k) = some (.float x)
  inputs : ∀ number xs, 0 < number → data[number - 1]? = some xs →
    scope.arrays (bufferParameter number) = some xs

/-- The tree of an element has the value of the element. -/
theorem eval_elementTree {scope : CScope} {data : List (Array Float32)}
    {accumulators : List Float32} (hs : scope.Holds data accumulators) {number : Nat} (hnumber : 0 < number)
    {position : IndexExpr} (hposition : position.Readable .factor) {xs : Array Float32}
    (hxs : data[number - 1]? = some xs) {n : Int} (hn : position.eval scope.ints = some n) {i : Nat}
    (hi : positionIn xs.size n = some i) {x : Float32} (hx : xs[i]? = some x) :
    (elementTree number position).eval scope = some (.float x) := by
  simp [elementTree, CExpr.eval, hposition.eval_tree hs.numerals hn, CScope.element,
    hs.inputs number xs hnumber hxs, CValue.int?, hi, hx]

/-- The tree of a value has its value. -/
theorem Value.Readable.eval_tree {v : Value} (h : v.Readable) {scope : CScope}
    {data : List (Array Float32)} {accumulators : List Float32}
    (hs : scope.Holds data accumulators) {x : Float32}
    (hx : v.eval data scope.ints accumulators = some x) :
    v.tree.eval scope = some (.float x) := by
  have hzero : Float32.ofScientific 0 true 1 = 0 := by decide +kernel
  induction v generalizing x with
  | zero =>
    cases hx
    rw [tree, CExpr.eval, hzero]
  | load number address =>
    obtain ⟨hposition, hconditions⟩ := h
    obtain ⟨position, conditions⟩ := address
    obtain ⟨holds, hholds, hx⟩ := Option.bind_eq_some_iff.mp hx
    have helement : holds = true → (elementTree number position).eval scope = some (.float x) := by
      rintro rfl
      rw [if_pos rfl] at hx
      by_cases hnumber : number = 0
      · simp [hnumber] at hx
      simp only [if_neg hnumber] at hx
      obtain ⟨xs, hxs, hx⟩ := Option.bind_eq_some_iff.mp hx
      obtain ⟨n, hn, hx⟩ := Option.bind_eq_some_iff.mp hx
      obtain ⟨i, hi, hx⟩ := Option.bind_eq_some_iff.mp hx
      exact eval_elementTree hs (Nat.pos_of_ne_zero hnumber) hposition hxs hn hi hx
    cases conditions with
    | nil =>
      cases hholds
      exact helement rfl
    | cons first rest =>
      have hall := Condition.eval_allTree (hconditions first List.mem_cons_self)
        (fun c hc => hconditions c (List.mem_cons_of_mem _ hc)) hs.numerals hholds
      cases holds with
      | true => simp [tree, CExpr.eval, hall, CValue.truth, helement rfl]
      | false =>
        cases hx
        simp [tree, CExpr.eval, hall, CValue.truth, hzero]
  | accumulator k => exact hs.accumulators k x hx
  | unary op y ih =>
    obtain ⟨w, hw, hx⟩ := Option.bind_eq_some_iff.mp hx
    cases hx
    exact op.eval_tree (ih h hw)
  | binary op a b iha ihb =>
    obtain ⟨w, hw, hx⟩ := Option.bind_eq_some_iff.mp hx
    obtain ⟨w', hw', hx⟩ := Option.bind_eq_some_iff.mp hx
    cases hx
    exact op.eval_tree (iha h.1 hw) (ihb h.2 hw')

end TensorLoom
