import TensorLoom.Proofs.Source.Printing
import TensorLoom.Proofs.Source.Program

/-!
# Texts that spell programs

A block is written as parts, and reading the parts gives the block back (`CBlock.readParts_parts`).
A text spells parts if it is cut into clauses that say them (`Spells`). Lines that do so can be put
behind each other (`Written.spells`), and in front of them comes the head of a function
(`Spells.read_eq`).
-/

namespace TensorLoom

/-! ## Blocks and their parts -/

namespace CBlock

/-- The parts that a block is written as. -/
def parts : CBlock → List CPart
  | done => []
  | int x e rest => .int x e :: rest.parts
  | step s rest => .step s :: rest.parts
  | loop x bound body rest =>
    .loopStart x :: .loopBound x bound :: .loopStep x :: (body.parts ++ .close :: rest.parts)

/-- No floating-point variable is declared in a loop. -/
def Placed : CBlock → Prop
  | done => True
  | int _ _ rest => rest.Placed
  | step _ rest => rest.Placed
  | loop _ _ body rest => body.declaresFloat = false ∧ body.Placed ∧ rest.Placed

/-- A block is read back from its parts, in front of what comes behind its brace. -/
theorem readParts_parts {b : CBlock} (h : b.Placed) {ps : List CPart} {around : List CBlock}
    (hps : readParts ps = some around) :
    readParts (b.parts ++ .close :: ps) = some (b :: around) := by
  induction b generalizing ps around with
  | done =>
    rw [parts, List.nil_append, readParts, hps]
    rfl
  | int x e rest ih =>
    rw [parts, List.cons_append, readParts, ih h hps]
  | step s rest ih =>
    rw [parts, List.cons_append, readParts, ih h hps]
  | loop x bound body rest ihbody ihrest =>
    obtain ⟨hfloat, hbody, hrest⟩ := h
    have hparts : (loop x bound body rest).parts ++ .close :: ps =
        .loopStart x :: .loopBound x bound :: .loopStep x ::
          (body.parts ++ .close :: (rest.parts ++ .close :: ps)) := by
      simp [parts]
    rw [hparts, readParts, ihbody hbody (ihrest hrest hps)]
    exact if_pos ⟨rfl, rfl, hfloat⟩

end CBlock

/-! ## Clauses -/

namespace CClause

/-- The tokens of a clause, with the one that ends it. -/
def all (c : CClause) : List CToken := c.tokens ++ [c.ending]

/-- Nothing but the last token ends a clause. -/
structure Plain (c : CClause) : Prop where
  tokens : ∀ t ∈ c.tokens, t.isEnd = false
  ending : c.ending.isEnd = true

theorem clauses_cons {c : CClause} (h : c.Plain) (ts : List CToken) :
    clauses (c.all ++ ts) = (clauses ts).map (c :: ·) := by
  obtain ⟨us, t⟩ := c
  obtain ⟨hus, ht⟩ := h
  rw [all, List.append_assoc, List.singleton_append]
  induction us with
  | nil =>
    rw [List.nil_append, clauses, if_pos ht]
    cases clauses ts <;> rfl
  | cons u us ih =>
    have hu := hus u List.mem_cons_self
    rw [List.cons_append, clauses, hu, ih (fun t ht => hus t (List.mem_cons_of_mem _ ht)) ht]
    cases clauses ts <;> rfl

/-- Clauses are cut where they end. -/
theorem clauses_flatMap {cs : List CClause} (h : ∀ c ∈ cs, c.Plain) :
    clauses (cs.flatMap all) = some cs := by
  induction cs with
  | nil => rfl
  | cons c cs ih =>
    rw [List.flatMap_cons, clauses_cons (h c List.mem_cons_self),
      ih fun c hc => h c (List.mem_cons_of_mem _ hc)]
    rfl

end CClause

/-- A token that no expression has. -/
def CToken.isOutside (t : CToken) : Bool := t.isEnd || t == .assign

/-- Tokens that are put together to an expression are tokens of expressions. -/
theorem isOutside_of_readTokens {pending : List Pending} {e? : Option CExpr} {ts : List CToken}
    {e : CExpr} (h : readTokens pending e? ts = some e) : ∀ t ∈ ts, t.isOutside = false := by
  fun_induction readTokens pending e? ts with
  | case1 _ _ _ ih => exact List.forall_mem_cons.mpr ⟨rfl, List.forall_mem_cons.mpr ⟨rfl, ih h⟩⟩
  | case2 _ _ _ ih => exact List.forall_mem_cons.mpr ⟨rfl, List.forall_mem_cons.mpr ⟨rfl, ih h⟩⟩
  | case16 _ _ _ _ _ ih =>
    exact List.forall_mem_cons.mpr ⟨rfl, List.forall_mem_cons.mpr ⟨rfl, ih h⟩⟩
  | case18 _ _ _ _ ih =>
    obtain ⟨⟨pending, e⟩, -, h⟩ := Option.bind_eq_some_iff.mp h
    exact List.forall_mem_cons.mpr ⟨rfl, ih pending e h⟩
  | case19 => exact List.forall_mem_nil _
  | _ =>
    -- either one token is read in front of the rest or nothing is
    first
    | cases h
    | rename_i ih; exact List.forall_mem_cons.mpr ⟨rfl, ih h⟩

/-! ## Texts that spell parts -/

/-- A text is cut into clauses that say some parts. -/
def Spells (text : List Char) (ps : List CPart) : Prop :=
  ∃ cs : List CClause, Lexes text (cs.flatMap CClause.all) ∧ (∀ c ∈ cs, c.Plain) ∧
    cs.mapM CPart.read = some ps

namespace Lexes

variable {a b : List Char} {ta tb : List CToken}

/-- Two texts with a blank or a line end between them. -/
theorem apart (ha : Lexes a ta) {c : Char} (hc : c = ' ' ∨ c = '\n') (hb : Lexes b tb) :
    Lexes (a ++ c :: b) (ta ++ tb) where
  starts := by
    obtain ⟨d, tail, rfl, hd⟩ := ha.starts
    exact ⟨d, tail ++ c :: b, rfl, hd⟩
  tokens_eq rest hrest := by
    have hends : goesOn c = false ∧ IsFinal c := by
      rcases hc with rfl | rfl
      · exact ⟨rfl, isFinal_of_all rfl⟩
      · exact ⟨rfl, isFinal_of_all rfl⟩
    rw [List.append_assoc, List.cons_append, ha.tokens_eq _ (ends_cons hends.1 _),
      tokens_cons hends.1 fun d _ _ => hends.2 d, withMark, if_pos hc, hb.tokens_eq rest hrest,
      Option.map_map]
    simp [Function.comp_def]

/-- A closing mark of two characters. -/
theorem closedJoint (ha : Lexes a ta) {c d : Char} {t : CToken} (hc : goesOn c = false)
    (ht : jointToken c d = some t) : Lexes (a ++ [c, d]) (ta ++ [t]) where
  starts := by
    obtain ⟨e, tail, rfl, he⟩ := ha.starts
    exact ⟨e, tail ++ [c, d], rfl, he⟩
  tokens_eq rest _ := by
    rw [List.append_assoc, List.cons_append, List.singleton_append,
      ha.tokens_eq _ (ends_cons hc _), tokens_joint ht, Option.map_map]
    simp [Function.comp_def]

theorem indented (ha : Lexes a ta) (n : Nat) : Lexes (List.replicate n ' ' ++ a) ta := by
  induction n with
  | zero => exact ha
  | succ n ih => exact ih.blank_left

end Lexes

namespace Spells

variable {a b : List Char} {ps qs : List CPart}

theorem line (ha : Spells a ps) (hb : Spells b qs) : Spells (a ++ '\n' :: b) (ps ++ qs) := by
  obtain ⟨cs, hcs, hplain, hreads⟩ := ha
  obtain ⟨ds, hds, hplain', hreads'⟩ := hb
  refine ⟨cs ++ ds, ?_, List.forall_mem_append.mpr ⟨hplain, hplain'⟩, ?_⟩
  · rw [List.flatMap_append]
    exact hcs.apart (.inr rfl) hds
  · rw [List.mapM_append, hreads, hreads']
    rfl

theorem indented (ha : Spells a ps) (n : Nat) : Spells (List.replicate n ' ' ++ a) ps := by
  obtain ⟨cs, hcs, h⟩ := ha
  exact ⟨cs, hcs.indented n, h⟩

/-- A text whose tokens are one clause. -/
theorem single {c : CClause} {p : CPart} (h : Lexes a c.all) (hplain : c.Plain)
    (hread : CPart.read c = some p) : Spells a [p] :=
  ⟨[c], by simpa using h, List.forall_mem_singleton.mpr hplain, by simp [hread]⟩

/-- A statement that gives something a value. -/
theorem statement {left right : String} {ts us : List CToken} {e : CExpr} {p : CPart}
    (hleft : Lexes left.toList ts) (hts : ∀ t ∈ ts, t.isOutside = false)
    (hright : Lexes right.toList us) (hus : readTokens [] none us = some e)
    (hpart : CPart.ofSides ts (.assign :: us) = some p) :
    Spells (left ++ " = " ++ right ++ ";").toList [p] := by
  have hassign : ∀ t ∈ ts, decide (t ≠ .assign) = true := by
    intro t ht
    have := (Bool.or_eq_false_iff.mp (hts t ht)).2
    simpa using this
  have hinside : ∀ t ∈ ts ++ .assign :: us, t.isEnd = false := by
    intro t ht
    rcases List.mem_append.mp ht with ht | ht
    · exact (Bool.or_eq_false_iff.mp (hts t ht)).1
    · rcases List.mem_cons.mp ht with rfl | ht
      · rfl
      · exact (Bool.or_eq_false_iff.mp (isOutside_of_readTokens hus t ht)).1
  refine single (c := ⟨ts ++ .assign :: us, .semicolon⟩) ?_ ⟨hinside, rfl⟩ ?_
  · have := (hleft.blank_right.mark (c := '=') rfl hright.blank_left (by simp)).closed (c := ';')
      (isFinal_of_all rfl) rfl
    simpa [String.toList_append, CClause.all] using this
  · rw [CPart.read, List.takeWhile_append_of_pos hassign, List.dropWhile_append_of_pos hassign]
    simpa using hpart

end Spells

/-- Lines that spell parts, one behind the other. -/
inductive Written : List String → List CPart → Prop
  | nil : Written [] []
  | cons {l : String} {lines : List String} {ps qs : List CPart} :
      Spells l.toList ps → Written lines qs → Written (l :: lines) (ps ++ qs)

namespace Written

variable {lines lines' : List String} {ps qs : List CPart}

theorem append (h : Written lines ps) (h' : Written lines' qs) :
    Written (lines ++ lines') (ps ++ qs) := by
  induction h with
  | nil => exact h'
  | cons hl _ ih =>
    rw [List.cons_append, List.append_assoc]
    exact .cons hl ih

/-- Lines of one part each. -/
theorem map {α : Type} {xs : List α} {line : α → String} {part : α → CPart}
    (h : ∀ x ∈ xs, Spells (line x).toList [part x]) : Written (xs.map line) (xs.map part) := by
  induction xs with
  | nil => exact .nil
  | cons x xs ih =>
    exact .cons (h x List.mem_cons_self) (ih fun x hx => h x (List.mem_cons_of_mem _ hx))

theorem spells (h : Written lines ps) (hne : lines ≠ []) :
    Spells ("\n".intercalate lines).toList ps := by
  induction h with
  | nil => exact absurd rfl hne
  | @cons l lines ps qs hl hlines ih =>
    cases hlines with
    | nil => simpa using hl
    | cons =>
      have := hl.line (ih (List.cons_ne_nil _ _))
      simpa [String.intercalate_cons_cons] using this

end Written

/-- A function with a body that is spelled behind its head. -/
theorem Spells.read_eq {head body : String} {ts : List CToken} {f output : String}
    {inputs : List String} {b : CBlock} (hhead : Lexes head.toList (ts ++ [.openingBlock]))
    (hts : ∀ t ∈ ts, t.isEnd = false) (hread : readHead ts = some (f, output, inputs))
    (hbody : Spells body.toList (b.parts ++ [.close])) (hplaced : b.Placed)
    (hnames : (output :: inputs ++ b.declared).Nodup) :
    CProgram.read (head ++ "\n" ++ body) = some ⟨f, output, inputs, b⟩ := by
  obtain ⟨cs, hcs, hplain, hparts⟩ := hbody
  have hplain : ∀ c ∈ (⟨ts, .openingBlock⟩ :: cs : List CClause), c.Plain :=
    List.forall_mem_cons.mpr ⟨⟨hts, rfl⟩, hplain⟩
  have htokens : tokens (lexemes (head ++ "\n" ++ body).toList) =
      some ((⟨ts, .openingBlock⟩ :: cs : List CClause).flatMap CClause.all) := by
    have := (hhead.apart (.inr rfl) hcs).tokens_eq [] (by rintro _ _ ⟨⟩)
    simpa [String.toList_append, CClause.all, lexemes, tokens] using this
  have hblock : readParts (b.parts ++ [.close]) = some [b] := CBlock.readParts_parts hplaced rfl
  rw [CProgram.read, htokens, Option.bind_eq_bind, Option.bind_some,
    CClause.clauses_flatMap hplain]
  simp only [Option.bind_some, hparts, CProgram.ofParts, Option.bind_eq_bind, hread, hblock]
  exact if_pos hnames

end TensorLoom
