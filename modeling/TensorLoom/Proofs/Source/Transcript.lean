import TensorLoom.Proofs.Source.Decoding
import TensorLoom.Proofs.Source.Spelling
import TensorLoom.Proofs.Source.Values

/-!
# The text of a source is a program

The body of a generated function consists of definitions of indices, accumulators, a nest of loops
that updates them, and stores. Each of its lines spells the parts it was written for, so the text is
read as the program that has these parts (`KernelSource.Readable.read_text`).
-/

namespace TensorLoom

open IndexExpr (Readable)

/-! ## Blocks -/

namespace CBlock

variable {ss : List CStatement} {rest : CBlock}

/-- Definitions of indices in front of a block. -/
def defining (ds : List (String × CExpr)) (rest : CBlock) : CBlock :=
  ds.foldr (fun d rest => .int d.1 d.2 rest) rest

/-- Statements in front of a block. -/
def sequence (ss : List CStatement) (rest : CBlock) : CBlock := ss.foldr .step rest

/-- Statements in a nest of loops, in front of a block. -/
def nest (ss : List CStatement) : List Loop → CBlock → CBlock
  | [], rest => sequence ss rest
  | l :: inner, rest => .loop (loopName l.axis) l.bound (nest ss inner .done) rest

theorem parts_defining (ds : List (String × CExpr)) :
    (defining ds rest).parts = ds.map (fun d => .int d.1 d.2) ++ rest.parts := by
  induction ds with
  | nil => rfl
  | cons d ds ih => exact congrArg _ ih

theorem parts_sequence (ss : List CStatement) :
    (sequence ss rest).parts = ss.map .step ++ rest.parts := by
  induction ss with
  | nil => rfl
  | cons s ss ih => exact congrArg _ ih

theorem parts_nest (rest : CBlock) (ss : List CStatement) (loops : List Loop) :
    (nest ss loops rest).parts = (nest ss loops .done).parts ++ rest.parts := by
  cases loops with
  | nil => simp [nest, parts_sequence, parts]
  | cons l inner => simp [nest, parts]

theorem declared_defining (ds : List (String × CExpr)) :
    (defining ds rest).declared = ds.map (·.1) ++ rest.declared := by
  induction ds with
  | nil => rfl
  | cons d ds ih => exact congrArg _ ih

theorem declared_sequence (ss : List CStatement) :
    (sequence ss rest).declared = ss.flatMap CStatement.declared ++ rest.declared := by
  induction ss with
  | nil => rfl
  | cons s ss ih =>
    rw [List.flatMap_cons, List.append_assoc, ← ih]
    rfl

theorem declared_nest (hs : ss.flatMap CStatement.declared = []) (loops : List Loop) :
    (nest ss loops rest).declared = loops.map (fun l => loopName l.axis) ++ rest.declared := by
  induction loops generalizing rest with
  | nil => rw [nest, declared_sequence, hs, List.map_nil]
  | cons l inner ih => simp [nest, declared, ih]

theorem placed_defining (ds : List (String × CExpr)) (h : rest.Placed) :
    (defining ds rest).Placed := by
  induction ds with
  | nil => exact h
  | cons d ds ih => exact ih

theorem placed_sequence (ss : List CStatement) (h : rest.Placed) : (sequence ss rest).Placed := by
  induction ss with
  | nil => exact h
  | cons s ss ih => exact ih

theorem declaresFloat_nest (hs : ss.flatMap CStatement.declared = []) (loops : List Loop)
    (h : rest.declaresFloat = false) : (nest ss loops rest).declaresFloat = false := by
  induction loops generalizing rest with
  | nil =>
    induction ss with
    | nil => exact h
    | cons s ss ih =>
      obtain ⟨hs, hss⟩ := List.append_eq_nil_iff.mp hs
      rw [nest, sequence, List.foldr_cons, declaresFloat, hs]
      exact ih hss
  | cons l inner ih =>
    rw [nest, declaresFloat, h, ih rfl]
    rfl

theorem placed_nest (hs : ss.flatMap CStatement.declared = []) (loops : List Loop)
    (h : rest.Placed) : (nest ss loops rest).Placed := by
  induction loops generalizing rest with
  | nil => exact placed_sequence ss h
  | cons l inner ih => exact ⟨declaresFloat_nest hs inner rfl, ih trivial, h⟩

end CBlock

/-! ## What a source says -/

namespace IndexDefinition

/-- The name that is defined. -/
def name : IndexDefinition → String
  | ofGlobal dimension => globalName dimension
  | ofMerged axis _ => mergedName axis

/-- What its value is read as. -/
def tree : IndexDefinition → CExpr
  | ofGlobal dimension => .call "get_global_id" (.number dimension)
  | ofMerged _ value => value.tree

end IndexDefinition

namespace Reduction

/-- What the value that a fold starts from is read as. -/
def identityTree : Reduction → CExpr
  | sum => .decimal 0 1
  | max => .negation (.name "INFINITY")

/-- What a fold of one more value is read as. -/
def combineTree (op : Reduction) (acc value : CExpr) : CExpr :=
  match op with
  | sum => .binary .add acc value
  | max => .call2 "max" acc value

end Reduction

/-- The statement of an update. -/
def Update.statement (op : Reduction) (u : Update) : CStatement :=
  let acc := accumulatorName u.accumulator
  .assign acc (op.combineTree (.name acc) u.value.tree)

/-- The statement of a store. -/
def Store.statement (t : Store) : CStatement :=
  .store (bufferParameter 0) t.position.tree t.value.tree

namespace Accumulation

/-- The statements that start the accumulators. -/
def starts (a : Accumulation) : List CStatement :=
  (List.range a.accumulators).map fun k => .float (accumulatorName k) a.op.identityTree

/-- An accumulation in front of a block. -/
def block (a : Accumulation) (rest : CBlock) : CBlock :=
  .sequence a.starts (.nest (a.updates.map (Update.statement a.op)) a.loops rest)

end Accumulation

namespace KernelSource

/-- The body of the function. -/
def block (s : KernelSource) : CBlock :=
  let stores := CBlock.sequence (s.stores.map Store.statement) .done
  let rest := match s.accumulation with
    | some a => a.block stores
    | none => stores
  .defining (s.definitions.map fun d => (d.name, d.tree)) rest

/-- The program that a source is the text of. -/
def program (s : KernelSource) : CProgram where
  name := s.name
  output := bufferParameter 0
  inputs := (List.range (s.buffers - 1)).map fun i => bufferParameter (i + 1)
  body := s.block

/-- A source whose text is read as it is meant. -/
structure Readable (s : KernelSource) : Prop where
  name : IsIdentifier s.name
  buffers : 0 < s.buffers
  definitions : ∀ d ∈ s.definitions, d.Legible
  updates : ∀ a, s.accumulation = some a → ∀ u ∈ a.updates, u.value.Readable
  stores : ∀ t ∈ s.stores, t.position.Readable .factor ∧ t.value.Readable
  /-- No index is defined twice. -/
  indices : (s.definitions.map IndexDefinition.name).Nodup
  loops : ∀ a, s.accumulation = some a → (a.loops.map (·.axis)).Nodup

end KernelSource

/-! ## Lines -/

theorem lexes_declared {type x : String} (ht : Lexes type.toList [.name type])
    (hx : IsIdentifier x) : Lexes (type ++ " " ++ x).toList [.name type, .name x] := by
  have := ht.apart (.inl rfl) hx.lexes
  simpa [String.toList_append] using this

namespace IndexDefinition

theorem lexes_global (dimension : Nat) :
    Lexes ("get_global_id(" ++ toString dimension ++ ")").toList
      [.name "get_global_id", .opening, .number dimension, .closing] := by
  have hcall : Lexes "get_global_id".toList [.name "get_global_id"] := lexes_literalWord rfl rfl
  have := (hcall.mark (c := '(') rfl (lexes_number dimension) (by simp)).closed (c := ')')
    (isFinal_of_all rfl) rfl
  simpa [String.toList_append] using this

/-- The definition of a name, by a text that is read as an expression. -/
theorem spells_definition {x value : String} (hx : IsIdentifier x) {ts : List CToken}
    (hvalue : Lexes value.toList ts) {e : CExpr} (he : readTokens [] none ts = some e) :
    Spells ("  int " ++ x ++ " = " ++ value ++ ";").toList [.int x e] := by
  have hint : Lexes "int".toList [.name "int"] := lexes_literalWord rfl rfl
  have hpart : CPart.ofSides [.name "int", .name x] (.assign :: ts) = some (.int x e) := by
    rw [CPart.ofSides, he]
    rfl
  have := (Spells.statement (lexes_declared hint hx) (by simp [CToken.isOutside, CToken.isEnd])
    hvalue he hpart).indented 2
  simpa [String.toList_append] using this

theorem Legible.spells {d : IndexDefinition} (h : d.Legible) :
    Spells d.text.toList [.int d.name d.tree] := by
  cases d with
  | ofGlobal dimension =>
    have hread : readTokens [] none [.name "get_global_id", .opening, .number dimension, .closing] =
        some (.call "get_global_id" (.number dimension)) := rfl
    have := spells_definition (isIdentifier_globalName dimension) (lexes_global dimension) hread
    simpa [text, toString, String.toList_append, name, tree] using this
  | ofMerged axis value =>
    have hvalue := h.readable
    have := spells_definition (isIdentifier_mergedName axis) hvalue.lexes
      hvalue.readsAs.readTokens_eq
    simpa [text, toString, String.toList_append, name, tree] using this

end IndexDefinition

namespace Reduction

theorem spells_start (op : Reduction) (k : Nat) :
    Spells ("  float " ++ accumulatorName k ++ " = " ++ op.identityText ++ ";").toList
      [.step (.float (accumulatorName k) op.identityTree)] := by
  have hfloat : Lexes "float".toList [.name "float"] := lexes_literalWord rfl rfl
  have hidentity : ∃ ts, Lexes op.identityText.toList ts ∧
      readTokens [] none ts = some op.identityTree := by
    cases op with
    | sum => exact ⟨_, lexes_zero, rfl⟩
    | max =>
      have hinfinity : Lexes "INFINITY".toList [.name "INFINITY"] := lexes_literalWord rfl rfl
      exact ⟨_, hinfinity.negative (by decide), rfl⟩
  obtain ⟨ts, hlexes, hread⟩ := hidentity
  have hpart : CPart.ofSides [.name "float", .name (accumulatorName k)] (.assign :: ts) =
      some (.step (.float (accumulatorName k) op.identityTree)) := by
    rw [CPart.ofSides, hread]
    rfl
  have := (Spells.statement (lexes_declared hfloat (isIdentifier_accumulatorName k))
    (by simp [CToken.isOutside, CToken.isEnd]) hlexes hread hpart).indented 2
  simpa [String.toList_append] using this

theorem exists_combine (op : Reduction) {acc value : String} {ts : List CToken} {e : CExpr}
    (hacc : IsIdentifier acc) (hvalue : Lexes value.toList ts) (he : ReadsAs ts e) :
    ∃ us, Lexes (op.combineText acc value).toList us ∧
      readTokens [] none us = some (op.combineTree (.name acc) e) := by
  cases op with
  | sum =>
    refine ⟨[.name acc] ++ .operator .add :: ts, ?_, ?_⟩
    · have := hacc.lexes.blank_right.mark (c := '+') rfl hvalue.blank_left (by simp)
      simpa [combineText, String.toList_append] using this
    · have := he [.operand (.name acc) .add] [] trivial
      rw [List.append_nil] at this
      rw [List.singleton_append, readTokens_name acc (show EndsAt 6 (.operator .add :: ts) from by
        show COperator.add.level ≤ 6; decide),
        readTokens_operator .add (show Loose _ [] from trivial), this]
      rfl
  | max =>
    have hmax : Lexes "max".toList [.name "max"] := lexes_literalWord rfl rfl
    refine ⟨.name "max" :: .opening :: [.name acc] ++ .comma :: ts ++ [.closing], ?_,
      ((ReadsAs.name acc).call2 "max" he).readTokens_eq⟩
    have := ((hmax.mark (c := '(') rfl hacc.lexes (by simp)).mark (c := ',') rfl hvalue.blank_left
      (by simp)).closed (c := ')') (isFinal_of_all rfl) rfl
    simpa [combineText, String.toList_append] using this

end Reduction

theorem Update.spells (op : Reduction) {u : Update} (h : u.value.Readable) :
    Spells (accumulatorName u.accumulator ++ " = " ++
      op.combineText (accumulatorName u.accumulator) u.value.text ++ ";").toList
      [.step (u.statement op)] := by
  have hacc := isIdentifier_accumulatorName u.accumulator
  obtain ⟨us, hlexes, hread⟩ := op.exists_combine hacc h.lexes h.readsAs
  have hpart : CPart.ofSides [.name (accumulatorName u.accumulator)] (.assign :: us) =
      some (.step (u.statement op)) := by
    rw [CPart.ofSides, hread]
    rfl
  exact Spells.statement hacc.lexes (by simp [CToken.isOutside, CToken.isEnd]) hlexes hread hpart

theorem Store.spells {t : Store} (hposition : t.position.Readable .factor)
    (hvalue : t.value.Readable) :
    Spells ("  " ++ elementText 0 t.position ++ " = " ++ t.value.text ++ ";").toList
      [.step t.statement] := by
  have hread := (readsAs_element 0 hposition).readTokens_eq
  have hvalue' := hvalue.readsAs.readTokens_eq
  have hpart : CPart.ofSides (elementTokens 0 t.position) (.assign :: t.value.tokens) =
      some (.step t.statement) := by
    unfold elementTokens at hread ⊢
    rw [CPart.ofSides, hread, hvalue']
    · rfl
    all_goals simp
  have := (Spells.statement (lexes_element 0 hposition) (isOutside_of_readTokens hread)
    hvalue.lexes hvalue' hpart).indented 2
  simpa [String.toList_append] using this

/-! ## Loops -/

theorem isIdentifier_loopName (axis : Nat) : IsIdentifier (loopName axis) :=
  IsIdentifier.numbered ⟨List.all_eq_true.mp rfl, 'r', _, rfl, rfl⟩ axis

/-- The brace that ends a function. -/
theorem lexes_brace : Lexes "\x7d".toList [.closingBlock] where
  starts := ⟨'\x7d', [], rfl, .inr (by simp)⟩
  tokens_eq rest _ :=
    (tokens_cons rfl fun d _ _ => isFinal_of_all rfl d).trans (withMark_eq rfl _)

/-- A brace with a comment behind it. -/
theorem lexes_closing {x : String} (hx : IsIdentifier x) :
    Lexes ("\x7d /* " ++ x ++ " */").toList [.closingBlock] where
  starts := ⟨'\x7d', " /* ".toList ++ x.toList ++ " */".toList,
    by simp [String.toList_append], .inr (by simp)⟩
  tokens_eq rest hrest := by
    have htext : ("\x7d /* " ++ x ++ " */").toList ++ rest =
        '\x7d' :: ' ' :: '/' :: '*' :: ' ' :: (x.toList ++ ' ' :: '*' :: '/' :: rest) := by
      simp [String.toList_append]
    have hword : lexemes (x.toList ++ ' ' :: '*' :: '/' :: rest) =
        .word x.toList :: .mark ' ' :: .mark '*' :: .mark '/' :: lexemes rest := by
      obtain ⟨c, tail, hcons, -⟩ := hx.head
      rw [lexemes_word (fun c hc => goesOn_of_isWordChar (hx.word c hc)) (by simp [hcons])
        (ends_cons rfl _)]
      rfl
    have hmarks : ∀ cs, lexemes ('/' :: '*' :: ' ' :: cs) =
        .mark '/' :: .mark '*' :: .mark ' ' :: lexemes cs := fun _ => rfl
    have hcomment : tokens (lexemes ('/' :: '*' :: ' ' ::
        (x.toList ++ ' ' :: '*' :: '/' :: rest))) = tokens (lexemes rest) := by
      rw [hmarks, hword]
      rfl
    rw [htext, tokens_cons rfl fun d _ _ => isFinal_of_all rfl d, withMark_eq rfl, tokens_blank,
      hcomment]
    rfl

namespace Loop

/-- The three clauses of a loop. -/
theorem spells_start (l : Loop) :
    Spells ("for (int " ++ loopName l.axis ++ " = 0; " ++ loopName l.axis ++ " < " ++
      toString l.bound ++ "; " ++ loopName l.axis ++ "++) \x7b").toList
      [.loopStart (loopName l.axis), .loopBound (loopName l.axis) l.bound,
        .loopStep (loopName l.axis)] := by
  have hi := (isIdentifier_loopName l.axis).lexes
  generalize loopName l.axis = i at hi
  have hfor : Lexes "for".toList [.name "for"] := lexes_literalWord rfl rfl
  have hint : Lexes "int".toList [.name "int"] := lexes_literalWord rfl rfl
  have hstart := ((hint.apart (.inl rfl) hi).blank_right.mark (c := '=') rfl
    (lexes_number 0).blank_left (by simp)).opened
  have hbound := (hi.blank_right.mark (c := '<') rfl (lexes_number l.bound).blank_left
    (by simp)).blank_left
  have hstep := ((hi.closedJoint (c := '+') (d := '+') rfl rfl).closed (c := ')')
    (isFinal_of_all rfl) rfl).blank_right.closed (c := '\x7b') (isFinal_of_all rfl) rfl
  have hline := ((hfor.apart (.inl rfl) hstart).mark (c := ';') rfl hbound (by simp)).mark
    (c := ';') rfl hstep.blank_left (by simp)
  refine ⟨[⟨[.name "for", .opening, .name "int", .name i, .assign, .number 0], .semicolon⟩,
    ⟨[.name i, .operator .lt, .number l.bound], .semicolon⟩,
    ⟨[.name i, .increment, .closing], .openingBlock⟩], ?_, ?_, rfl⟩
  · simpa [String.toList_append, CClause.all] using hline
  · simp only [List.forall_mem_cons]
    exact ⟨⟨by simp [CToken.isEnd], rfl⟩, ⟨by simp [CToken.isEnd], rfl⟩,
      ⟨by simp [CToken.isEnd], rfl⟩, List.forall_mem_nil _⟩

theorem spells_close (l : Loop) : Spells ("\x7d /* " ++ loopName l.axis ++ " */").toList [.close] :=
  .single (c := ⟨[], .closingBlock⟩) (lexes_closing (isIdentifier_loopName l.axis))
    ⟨List.forall_mem_nil _, rfl⟩ rfl

end Loop

namespace Accumulation

theorem spells_indent {text : String} {ps : List CPart} (h : Spells text.toList ps)
    (depth : Nat) : Spells (indent depth ++ text).toList ps := by
  have := h.indented (2 * depth)
  simpa [indent, String.toList_append] using this

/-- A nest of loops is written as its parts. -/
theorem written_loopLines {body : Nat → List String} {ss : List CStatement}
    (hbody : ∀ depth, Written (body depth) (ss.map .step)) (loops : List Loop) (depth : Nat) :
    Written (loopLines body depth loops) (CBlock.nest ss loops .done).parts := by
  induction loops generalizing depth with
  | nil =>
    rw [CBlock.nest, CBlock.parts_sequence, CBlock.parts, List.append_nil]
    exact hbody depth
  | cons l inner ih =>
    have hlines := Written.append (.cons (spells_indent l.spells_start depth) (ih (depth + 1)))
      (.cons (spells_indent l.spells_close depth) .nil)
    simpa [loopLines, CBlock.nest, CBlock.parts, String.append_assoc] using hlines

theorem written_lines {a : Accumulation} (h : ∀ u ∈ a.updates, u.value.Readable) :
    Written a.lines (a.starts.map .step ++
      (CBlock.nest (a.updates.map (Update.statement a.op)) a.loops .done).parts) := by
  refine .append ?_ (written_loopLines (fun depth => ?_) a.loops 1)
  · rw [starts, List.map_map]
    exact .map fun k _ => a.op.spells_start k
  · rw [List.map_map]
    refine .map fun u hu => ?_
    have hline := spells_indent (u.spells a.op (h u hu)) depth
    simpa [String.append_assoc] using hline

end Accumulation

/-! ## The head -/

namespace KernelSource

/-- The tokens of the constant parameters, and of the bracket behind them. -/
def inputTokens : List String → List CToken
  | [] => [.closing]
  | x :: xs => .comma :: .name "const" :: .name "__global" :: .name "float" :: .operator .mul ::
      .name x :: inputTokens xs

theorem readInputs_inputTokens (xs : List String) : readInputs (inputTokens xs) = some xs := by
  induction xs with
  | nil => rfl
  | cons x xs ih =>
    rw [inputTokens, readInputs, ih]
    rfl

theorem lexes_parameter {x : String} (hx : IsIdentifier x) :
    Lexes ("__global float* " ++ x).toList
      [.name "__global", .name "float", .operator .mul, .name x] := by
  have hglobal : Lexes "__global".toList [.name "__global"] := lexes_literalWord rfl rfl
  have hfloat : Lexes "float".toList [.name "float"] := lexes_literalWord rfl rfl
  have := hglobal.apart (.inl rfl) (hfloat.mark (c := '*') rfl hx.lexes.blank_left (by simp))
  simpa [String.toList_append] using this

/-- Constant parameters behind other text, with the bracket behind them. -/
theorem lexes_inputs {text : String} {ts : List CToken} (h : Lexes text.toList ts)
    (numbers : List Nat) (hnumbers : ∀ n ∈ numbers, n ≠ 0) :
    Lexes (", ".intercalate (text :: numbers.map parameterText) ++ ")").toList
      (ts ++ inputTokens (numbers.map bufferParameter)) := by
  induction numbers generalizing text ts with
  | nil =>
    have := h.closed (c := ')') (isFinal_of_all rfl) rfl
    simpa [inputTokens, String.toList_append] using this
  | cons n numbers ih =>
    have hn := hnumbers n List.mem_cons_self
    have hconst : Lexes "const".toList [.name "const"] := lexes_literalWord rfl rfl
    have hparameter := hconst.apart (.inl rfl)
      (lexes_parameter (isIdentifier_bufferParameter n))
    have hfirst : Lexes (text ++ ", " ++ parameterText n).toList
        (ts ++ .comma :: [.name "const", .name "__global", .name "float", .operator .mul,
          .name (bufferParameter n)]) := by
      have := h.mark (c := ',') rfl hparameter.blank_left (by simp)
      simpa [parameterText, hn, String.toList_append] using this
    have := ih hfirst fun m hm => hnumbers m (List.mem_cons_of_mem _ hm)
    simpa [inputTokens, String.intercalate_cons_cons, String.append_assoc] using this

/-- The numbers of the constant parameters. -/
def inputNumbers (s : KernelSource) : List Nat := (List.range (s.buffers - 1)).map (· + 1)

theorem inputs_eq (s : KernelSource) : s.program.inputs = s.inputNumbers.map bufferParameter := by
  rw [inputNumbers, List.map_map]
  rfl

/-- The tokens in front of the body. -/
def headTokens (s : KernelSource) : List CToken :=
  .name "__kernel" :: .name "void" :: .name s.name :: .opening :: .name "__global" ::
    .name "float" :: .operator .mul :: .name (bufferParameter 0) :: inputTokens s.program.inputs

theorem readHead_headTokens (s : KernelSource) :
    readHead s.headTokens = some (s.name, bufferParameter 0, s.program.inputs) := by
  rw [headTokens, readHead, readInputs_inputTokens]
  rfl

theorem isEnd_headTokens (s : KernelSource) : ∀ t ∈ s.headTokens, t.isEnd = false := by
  have hinputs : ∀ xs, ∀ t ∈ inputTokens xs, t.isEnd = false := by
    intro xs
    induction xs with
    | nil => simp [inputTokens, CToken.isEnd]
    | cons x xs ih => simpa [inputTokens, CToken.isEnd] using ih
  simpa [headTokens, CToken.isEnd] using hinputs s.program.inputs

/-- The line that opens the function. -/
def head (s : KernelSource) : String :=
  "__kernel void " ++ s.name ++ "(" ++
    ", ".intercalate ((List.range s.buffers).map parameterText) ++ ") \x7b"

theorem Readable.lexes_head {s : KernelSource} (h : s.Readable) :
    Lexes s.head.toList (s.headTokens ++ [.openingBlock]) := by
  have hkernel : Lexes "__kernel".toList [.name "__kernel"] := lexes_literalWord rfl rfl
  have hvoid : Lexes "void".toList [.name "void"] := lexes_literalWord rfl rfl
  have hfirst : Lexes ("__kernel void " ++ s.name ++ "(" ++ parameterText 0).toList
      [.name "__kernel", .name "void", .name s.name, .opening, .name "__global", .name "float",
        .operator .mul, .name (bufferParameter 0)] := by
    have := hkernel.apart (.inl rfl) (hvoid.apart (.inl rfl)
      (h.name.lexes.mark (c := '(') rfl (lexes_parameter (isIdentifier_bufferParameter 0))
        (by simp)))
    simpa [parameterText, String.toList_append] using this
  have hrange : List.range s.buffers = 0 :: s.inputNumbers := by
    obtain ⟨n, hn⟩ := Nat.exists_eq_succ_of_ne_zero (Nat.ne_of_gt h.buffers)
    rw [inputNumbers, hn, List.range_succ_eq_map]
    rfl
  have hprefix : ∀ (front x : String) (xs : List String),
      front ++ ", ".intercalate (x :: xs) = ", ".intercalate ((front ++ x) :: xs) := by
    intro front x xs
    cases xs <;> simp [String.intercalate_cons_cons, String.append_assoc]
  have hinputs := lexes_inputs hfirst s.inputNumbers (by simp [inputNumbers])
  rw [← hprefix, ← inputs_eq] at hinputs
  have := hinputs.blank_right.closed (c := '\x7b') (isFinal_of_all rfl) rfl
  simpa [head, hrange, headTokens, String.append_assoc, String.toList_append] using this

/-! ## The body -/

/-- The lines behind the head. -/
def bodyLines (s : KernelSource) : List String :=
  s.definitions.map IndexDefinition.text ++
    (match s.accumulation with
      | some a => a.lines
      | none => []) ++
    s.stores.map (fun t => "  " ++ elementText 0 t.position ++ " = " ++ t.value.text ++ ";") ++
    ["\x7d"]

theorem text_eq (s : KernelSource) : s.text = s.head ++ "\n" ++ "\n".intercalate s.bodyLines := by
  obtain ⟨l, lines, hlines⟩ : ∃ l lines, s.bodyLines = l :: lines :=
    List.exists_cons_of_ne_nil (by simp [bodyLines])
  have htext : s.lines = s.head :: s.bodyLines := by
    cases hacc : s.accumulation <;> simp [KernelSource.lines, head, bodyLines, hacc]
  rw [text, htext, hlines, String.intercalate_cons_cons]

end KernelSource

namespace KernelSource

variable {s : KernelSource}

theorem Readable.written_bodyLines (h : s.Readable) :
    Written s.bodyLines (s.block.parts ++ [.close]) := by
  have hdefinitions : Written (s.definitions.map IndexDefinition.text)
      (s.definitions.map fun d => .int d.name d.tree) :=
    .map fun d hd => (h.definitions d hd).spells
  have hstores : Written
      (s.stores.map fun t => "  " ++ elementText 0 t.position ++ " = " ++ t.value.text ++ ";")
      (s.stores.map fun t => .step t.statement) :=
    .map fun t ht => Store.spells (h.stores t ht).1 (h.stores t ht).2
  have hclose : Written ["\x7d"] [.close] := by
    exact .cons (.single (c := ⟨[], .closingBlock⟩) lexes_brace ⟨List.forall_mem_nil _, rfl⟩ rfl)
      .nil
  unfold bodyLines block
  cases hacc : s.accumulation with
  | none =>
    have := ((hdefinitions.append .nil).append hstores).append hclose
    simpa [CBlock.parts_defining, CBlock.parts_sequence, CBlock.parts, Function.comp_def] using this
  | some a =>
    have := ((hdefinitions.append (a.written_lines (h.updates a hacc))).append hstores).append
      hclose
    simpa [CBlock.parts_defining, Accumulation.block, CBlock.parts_sequence, CBlock.parts,
      CBlock.parts_nest (.sequence _ _), Function.comp_def] using this

theorem placed_block (s : KernelSource) : s.block.Placed := by
  unfold block
  refine CBlock.placed_defining _ ?_
  cases s.accumulation with
  | none => exact CBlock.placed_sequence _ trivial
  | some a =>
    refine CBlock.placed_sequence _ (CBlock.placed_nest ?_ _ (CBlock.placed_sequence _ trivial))
    simp [Update.statement, CStatement.declared]

/-- The names of the accumulators and the loops. -/
def accumulatedNames (s : KernelSource) : List String :=
  match s.accumulation with
  | some a => (List.range a.accumulators).map accumulatorName ++
      a.loops.map fun l => loopName l.axis
  | none => []

theorem declared_block (s : KernelSource) :
    s.block.declared = s.definitions.map IndexDefinition.name ++ s.accumulatedNames := by
  have hstores : (CBlock.sequence (s.stores.map Store.statement) .done).declared = [] := by
    rw [CBlock.declared_sequence, CBlock.declared]
    simp [Store.statement, CStatement.declared]
  unfold block accumulatedNames
  rw [CBlock.declared_defining, List.map_map]
  refine congrArg _ ?_
  cases s.accumulation with
  | none => exact hstores
  | some a =>
    have hupdates : (a.updates.map (Update.statement a.op)).flatMap CStatement.declared = [] := by
      simp [Update.statement, CStatement.declared]
    simp only [Accumulation.block, CBlock.declared_sequence, CBlock.declared_nest hupdates, hstores]
    simp [Accumulation.starts, CStatement.declared, List.flatMap_map, ← List.map_eq_flatMap]

theorem head?_bufferParameter (number : Nat) :
    (bufferParameter number).toList.head? = some 'd' := by simp [bufferParameter, toString]

theorem head?_accumulatorName (k : Nat) : (accumulatorName k).toList.head? = some 'a' := by
  simp [accumulatorName, toString]

theorem head?_loopName (axis : Nat) : (loopName axis).toList.head? = some 'r' := by
  simp [loopName, toString]

theorem head?_definitionName (d : IndexDefinition) :
    d.name.toList.head? = some 'g' ∨ d.name.toList.head? = some 'i' := by
  cases d with
  | ofGlobal dimension => simp [IndexDefinition.name, globalName, toString]
  | ofMerged axis value => simp [IndexDefinition.name, mergedName, toString]

/-- Kinds of names differ in how they start, and names of one kind in their numbers. -/
theorem Readable.nodup_names (h : s.Readable) :
    (bufferParameter 0 :: s.program.inputs ++ s.block.declared).Nodup := by
  have hbuffers : (bufferParameter 0 :: s.program.inputs).Nodup := by
    have hnumbers : (0 :: s.inputNumbers).Nodup := by
      simp [inputNumbers, List.nodup_range.map fun _ _ h => Nat.succ.inj h]
    rw [inputs_eq, ← List.map_cons]
    exact hnumbers.map fun _ _ h => append_repr_inj h
  have haccumulated : s.accumulatedNames.Nodup := by
    unfold accumulatedNames
    cases hacc : s.accumulation with
    | none => exact List.nodup_nil
    | some a =>
      refine List.nodup_append.mpr ⟨List.nodup_range.map fun _ _ h => append_repr_inj h, ?_, ?_⟩
      · have := (h.loops a hacc).map (f := loopName) fun _ _ h => loopName_inj h
        rwa [List.map_map] at this
      · intro x hx y hy hxy
        obtain ⟨k, -, rfl⟩ := List.mem_map.mp hx
        obtain ⟨l, -, rfl⟩ := List.mem_map.mp hy
        have := congrArg (·.toList.head?) hxy
        simp [head?_accumulatorName, head?_loopName] at this
  have hstarts : ∀ x ∈ s.accumulatedNames,
      x.toList.head? = some 'a' ∨ x.toList.head? = some 'r' := by
    intro x hx
    unfold accumulatedNames at hx
    cases hacc : s.accumulation with
    | none =>
      rw [hacc] at hx
      cases hx
    | some a =>
      rw [hacc] at hx
      rcases List.mem_append.mp hx with hx | hx
      · obtain ⟨k, -, rfl⟩ := List.mem_map.mp hx
        exact .inl (head?_accumulatorName k)
      · obtain ⟨l, -, rfl⟩ := List.mem_map.mp hx
        exact .inr (head?_loopName l.axis)
  rw [declared_block]
  refine List.nodup_append.mpr ⟨hbuffers, List.nodup_append.mpr ⟨h.indices, haccumulated, ?_⟩, ?_⟩
  · rintro x hx y hy rfl
    obtain ⟨d, -, rfl⟩ := List.mem_map.mp hx
    have := head?_definitionName d
    have := hstarts _ hy
    grind
  · rintro x hx y hy rfl
    have hbuffer : x.toList.head? = some 'd' := by
      rw [inputs_eq, ← List.map_cons] at hx
      obtain ⟨n, -, rfl⟩ := List.mem_map.mp hx
      exact head?_bufferParameter n
    rcases List.mem_append.mp hy with hy | hy
    · obtain ⟨d, -, rfl⟩ := List.mem_map.mp hy
      have := head?_definitionName d
      grind
    · have := hstarts x hy
      grind

/-- The text of a source is read as its program. -/
theorem Readable.read_text (h : s.Readable) : CProgram.read s.text = some s.program := by
  rw [text_eq]
  exact (h.written_bodyLines.spells (by simp [bodyLines])).read_eq h.lexes_head
    s.isEnd_headTokens s.readHead_headTokens s.placed_block h.nodup_names

end KernelSource

end TensorLoom
