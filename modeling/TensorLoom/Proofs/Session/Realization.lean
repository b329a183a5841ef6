import TensorLoom.Session.Realization
import TensorLoom.Proofs.OpTree.Walk
import Mathlib.Logic.Relation
import Mathlib.Tactic.ByContra
import Mathlib.Tactic.Tauto

/-!
# One run of realization

A run of realization is told by what is asked of the materializer (`Materializer.logged`).
`Session.Realizes` says what such a log can be: each tensor asked for is pending, its sources are
not, and it is realized if the materializer succeeds. A failure ends the run.

The list of visits is worked off under an invariant (`Session.Worklist`). Whatever stands before the
return to a tensor is older than it, the sources that it still waits for stand before it, and the
return to a tensor that has been expanded is still on the list as long as the tensor is pending. So
a visit to a tensor that has been expanded can be dropped: the return to it comes before the return
to whatever needs it.
-/

namespace TensorLoom

variable {σ : Type}

/-- A materializer that also keeps a log of what it was asked and whether it succeeded. -/
def Materializer.logged (materialize : Materializer σ) : Materializer (σ × List (Request × Bool)) :=
  fun request => ExceptT.mk fun (device, log) =>
    let (outcome, device) := (materialize request).run device
    (outcome, device, log ++ [(request, outcome.isOk)])

theorem Materializer.logged_eq {materialize : Materializer σ} {request : Request}
    {state state' : σ × List (Request × Bool)} {outcome : Except SessionError Unit}
    (h : (materialize.logged request).run state = (outcome, state')) :
    (materialize request).run state.1 = (outcome, state'.1) ∧
      state'.2 = state.2 ++ [(request, outcome.isOk)] := by
  obtain ⟨rfl, rfl⟩ := Prod.mk.inj h
  exact ⟨rfl, rfl⟩

/-- The tensors computed according to a log. -/
def computed (log : List (Request × Bool)) : List TensorId :=
  (log.filter (·.2)).map (·.1.tensor)

theorem computed_append (log log' : List (Request × Bool)) :
    computed (log ++ log') = computed log ++ computed log' := by
  simp [computed]

namespace Session

variable {s s' : Session}

/-! ## Any materializer -/

/-- Realizing changes what has been realized and nothing else. -/
theorem runVisits_eq_withRealized (materialize : Materializer σ) (s : Session) (state : σ)
    (expanded : Std.HashSet TensorId) (visits : List Visit) :
    ∃ realized, (runVisits materialize s state expanded visits).2.1 = { s with realized } := by
  fun_induction runVisits materialize s state expanded visits with
  | case1 s => exact ⟨s.realized, rfl⟩
  | case2 s state expanded x rest _ ih => exact ih
  | case3 s state expanded x rest _ ih => exact ih
  | case4 s state expanded x rest _ ih => exact ih
  | case5 s => exact ⟨s.realized, rfl⟩
  | case6 s state expanded x rest request _ state' _ ih => exact ih

theorem realize_eq_withRealized (materialize : Materializer σ) (s : Session) (state : σ)
    (x : TensorId) : ∃ realized, (s.realize materialize state x).2.1 = { s with realized } :=
  runVisits_eq_withRealized materialize s state _ _

/-- Keeping a log changes nothing. -/
theorem runVisits_logged (materialize : Materializer σ) (s : Session)
    (state : σ × List (Request × Bool)) (expanded : Std.HashSet TensorId) (visits : List Visit) :
    runVisits materialize s state.1 expanded visits =
      let (outcome, s', state') := runVisits materialize.logged s state expanded visits
      (outcome, s', state'.1) := by
  fun_induction runVisits materialize.logged s state expanded visits with
  | case1 s state expanded => rw [runVisits]
  | case2 s state expanded x rest hskip ih => rw [runVisits, if_pos hskip, ih]
  | case3 s state expanded x rest hnew ih => rw [runVisits, if_neg hnew, ih]
  | case4 s state expanded x rest hnone ih =>
    rw [runVisits]
    simp only [hnone, ih]
  | case5 s state expanded x rest request hrequest e state' hrun =>
    rw [runVisits]
    simp only [hrequest, (Materializer.logged_eq hrun).1]
  | case6 s state expanded x rest request hrequest state' hrun ih =>
    rw [runVisits]
    simp only [hrequest, (Materializer.logged_eq hrun).1, ih]

/-! ## Pending tensors -/

theorem isRealized_markRealized {x z : TensorId} :
    (s.markRealized x).isRealized z = true ↔ z = x ∨ s.isRealized z = true := by
  rw [isRealized, markRealized, Std.HashSet.contains_insert, Bool.or_eq_true, beq_iff_eq,
    isRealized]
  exact or_congr_left eq_comm

/-- What has been realized stays realized. -/
theorem isRealized_realize {z : TensorId} (hz : s.isRealized z = true)
    (materialize : Materializer σ) (state : σ) (x : TensorId) :
    (s.realize materialize state x).2.1.isRealized z = true := by
  unfold realize
  generalize ([.expand x] : List Visit) = visits
  generalize ({} : Std.HashSet TensorId) = expanded
  fun_induction runVisits materialize s state expanded visits with
  | case1 s => exact hz
  | case2 s state expanded x rest _ ih => exact ih hz
  | case3 s state expanded x rest _ ih => exact ih hz
  | case4 s state expanded x rest _ ih => exact ih hz
  | case5 s => exact hz
  | case6 s state expanded x rest request _ state' _ ih =>
    exact ih (isRealized_markRealized.mpr (.inr hz))

theorem isPending_iff {z : TensorId} : s.isPending z = true ↔
    s.tensors[z]?.any (·.category.isSome) = true ∧ s.isRealized z ≠ true := by
  rw [isPending, Bool.and_eq_true, Bool.not_eq_true', Ne, Bool.not_eq_true]

theorem isPending_markRealized {x z : TensorId} :
    (s.markRealized x).isPending z = true ↔ s.isPending z = true ∧ z ≠ x := by
  rw [isPending_iff, isPending_iff, Ne, isRealized_markRealized, not_or, and_comm (a := ¬z = x),
    ← and_assoc]
  rfl

/-- A request is made of every pending tensor and of no other. -/
theorem request?_eq_none {x : TensorId} : s.request? x = none ↔ s.isPending x = false := by
  unfold request? isPending
  cases h : s.tensors[x]? with
  | none => simp
  | some t =>
    obtain ⟨shape, content⟩ := t
    cases content with
    | host data => simp [Tensor.category]
    | deferred category tree => simp [Tensor.category]

theorem of_request? {x : TensorId} {request : Request} (h : s.request? x = some request) :
    request.tensor = x ∧ s.isPending x = true := by
  have hp : s.isPending x = true := by
    by_contra hp
    rw [request?_eq_none.mpr (eq_false_of_ne_true hp)] at h
    cases h
  refine ⟨?_, hp⟩
  unfold request? at h
  split at h
  · split at h
    · cases h
    · cases h
      rfl
  · cases h

/-- Visits to tensors that need not be computed are dropped. -/
theorem runVisits_settled (materialize : Materializer σ) (state : σ)
    (expanded : Std.HashSet TensorId) (visits : List Visit) {zs : List TensorId}
    (hzs : ∀ z ∈ zs, s.isPending z = false) :
    runVisits materialize s state expanded (zs.map .expand ++ visits) =
      runVisits materialize s state expanded visits := by
  induction zs with
  | nil => rfl
  | cons z zs ih =>
    rw [List.forall_mem_cons] at hzs
    rw [List.map_cons, List.cons_append, runVisits, if_pos (by simp [hzs.1]), ih hzs.2]

/-- A tensor whose sources need not be computed is the only one that is computed for it. -/
theorem realize_ready (materialize : Materializer σ) {x : TensorId} {request : Request}
    (asked : s.request? x = some request) (ready : ∀ z ∈ s.sources x, s.isPending z = false)
    {state state' : σ} (hrun : (materialize request).run state = (.ok (), state')) :
    s.realize materialize state x = (.ok (), s.markRealized x, state') := by
  obtain ⟨-, hpending⟩ := of_request? asked
  have hsources : ∀ z ∈ (s.sources x).filter (· < x), s.isPending z = false :=
    fun z hz => ready z (List.mem_filter.mp hz).1
  rw [realize, runVisits, if_neg (by simp [hpending]), runVisits_settled _ _ _ _ hsources,
    runVisits, asked]
  dsimp only
  rw [hrun]
  dsimp only
  rw [runVisits]

/-! ## Logs -/

/-- What can be asked of a materializer, and what has been realized afterwards. -/
inductive Realizes : Session → List (Request × Bool) → Session → Prop
  | done (s : Session) : Realizes s [] s
  | succeed {s s' : Session} {request : Request} {log : List (Request × Bool)}
      (asked : s.request? request.tensor = some request)
      (ready : ∀ z ∈ s.sources request.tensor, s.isPending z = false)
      (rest : Realizes (s.markRealized request.tensor) log s') :
      Realizes s ((request, true) :: log) s'
  | fail {s : Session} {request : Request}
      (asked : s.request? request.tensor = some request)
      (ready : ∀ z ∈ s.sources request.tensor, s.isPending z = false) :
      Realizes s [(request, false)] s

/-! ## The list of visits -/

/-- Each return to a tensor stands behind all sources that it still waits for, given what stands
before the list. -/
def Awaited (s : Session) : (before : List TensorId) → List Visit → Prop
  | _, [] => True
  | before, .expand x :: visits => Awaited s (x :: before) visits
  | before, .finish x :: visits =>
    (∀ z ∈ s.sources x, s.isPending z = true → z ∈ before) ∧ Awaited s (x :: before) visits

theorem Awaited.mono {before before' : List TensorId} {visits : List Visit}
    (hs : s'.sources = s.sources)
    (hb : ∀ z, s'.isPending z = true → s.isPending z = true ∧ (z ∈ before → z ∈ before'))
    (h : Awaited s before visits) : Awaited s' before' visits := by
  induction visits generalizing before before' with
  | nil => trivial
  | cons v visits ih =>
    have hcons : ∀ x z, s'.isPending z = true →
        s.isPending z = true ∧ (z ∈ x :: before → z ∈ x :: before') := fun x z hz => by
      refine ⟨(hb z hz).1, fun hmem => ?_⟩
      rcases List.mem_cons.mp hmem with rfl | hmem
      · exact List.mem_cons_self
      · exact List.mem_cons_of_mem _ ((hb z hz).2 hmem)
    cases v with
    | expand x => exact ih (hcons x) h
    | finish x =>
      exact ⟨fun z hz hp => (hb z hp).2 (h.1 z (hs ▸ hz) (hb z hp).1), ih (hcons x) h.2⟩

/-- Visits of older tensors only stand before the return to a tensor. -/
def Visit.MayPrecede (v w : Visit) : Prop := ∀ x, w = .finish x → v.tensor < x

/-- The invariant of the list of visits. -/
structure Worklist (s : Session) (expanded : Std.HashSet TensorId) (visits : List Visit) :
    Prop where
  ordered : visits.Pairwise Visit.MayPrecede
  awaited : Awaited s [] visits
  started : ∀ x, expanded.contains x = true → s.isPending x = true → .finish x ∈ visits

/-- A return that comes later in the list makes up for a visit that has been dropped. -/
theorem Awaited.drop (older : ∀ x, ∀ z ∈ s.sources x, z < x) {x : TensorId}
    {before : List TensorId} {visits : List Visit} (h : Awaited s (x :: before) visits)
    (ordered : visits.Pairwise Visit.MayPrecede) (hx : .finish x ∈ visits) :
    Awaited s before visits := by
  induction visits generalizing before with
  | nil => trivial
  | cons v visits ih =>
    obtain ⟨hv, hrest⟩ := List.pairwise_cons.mp ordered
    have swap : ∀ {y}, Awaited s (y :: x :: before) visits → Awaited s (x :: y :: before) visits :=
      fun h => h.mono rfl fun z hz => ⟨hz, by simp only [List.mem_cons]; tauto⟩
    cases v with
    | expand y =>
      have hx : .finish x ∈ visits := (List.mem_cons.mp hx).resolve_left (by rintro ⟨⟩)
      exact ih (swap h) hrest hx
    | finish y =>
      by_cases hxy : y = x
      · subst hxy
        refine ⟨fun z hz hp => (List.mem_cons.mp (h.1 z hz hp)).resolve_left ?_, h.2.mono rfl ?_⟩
        · exact Nat.ne_of_lt (older y z hz)
        · exact fun z hz => ⟨hz, by simp only [List.mem_cons]; tauto⟩
      · have hx : .finish x ∈ visits :=
          (List.mem_cons.mp hx).resolve_left fun e => hxy (Visit.finish.inj e).symm
        -- the sources of an older tensor are not the one that is left out
        have hyx : y < x := hv _ hx x rfl
        refine ⟨fun z hz hp => (List.mem_cons.mp (h.1 z hz hp)).resolve_left ?_,
          ih (swap h.2) hrest hx⟩
        exact Nat.ne_of_lt (Nat.lt_trans (older y z hz) hyx)

/-- After visits to some tensors these stand before the rest of the list. -/
theorem Awaited.expand_all {zs before : List TensorId} {visits : List Visit}
    (h : Awaited s (zs.reverse ++ before) visits) :
    Awaited s before (zs.map .expand ++ visits) := by
  induction zs generalizing before with
  | nil => exact h
  | cons z zs ih =>
    rw [List.reverse_cons, List.append_assoc] at h
    exact ih h

namespace Worklist

variable {expanded : Std.HashSet TensorId} {visits : List Visit} {x : TensorId}

/-- The worklist of a run. -/
theorem start (x : TensorId) : Worklist s {} [.expand x] where
  ordered := List.pairwise_singleton ..
  awaited := trivial
  started x hx := by simp at hx

/-- A visit to a tensor that is not pending is dropped. -/
theorem skip (h : Worklist s expanded (.expand x :: visits)) (hx : s.isPending x = false) :
    Worklist s expanded visits where
  ordered := (List.pairwise_cons.mp h.ordered).2
  awaited := h.awaited.mono rfl fun z hz => ⟨hz, fun hmem => by
    obtain rfl := List.mem_singleton.mp hmem
    rw [hx] at hz
    cases hz⟩
  started y hy hp := (List.mem_cons.mp (h.started y hy hp)).resolve_left (by rintro ⟨⟩)

/-- So is one to a tensor that has been expanded. -/
theorem repeated (older : ∀ x, ∀ z ∈ s.sources x, z < x)
    (h : Worklist s expanded (.expand x :: visits)) (hx : expanded.contains x = true)
    (hp : s.isPending x = true) : Worklist s expanded visits where
  ordered := (List.pairwise_cons.mp h.ordered).2
  awaited := Awaited.drop older h.awaited (List.pairwise_cons.mp h.ordered).2
    ((List.mem_cons.mp (h.started x hx hp)).resolve_left (by rintro ⟨⟩))
  started y hy hp := (List.mem_cons.mp (h.started y hy hp)).resolve_left (by rintro ⟨⟩)

/-- Expanding a tensor. -/
theorem expand (older : ∀ x, ∀ z ∈ s.sources x, z < x)
    (h : Worklist s expanded (.expand x :: visits)) :
    Worklist s (expanded.insert x)
      (((s.sources x).filter (· < x)).map .expand ++ .finish x :: visits) where
  ordered := by
    obtain ⟨hx, ordered⟩ := List.pairwise_cons.mp h.ordered
    refine List.pairwise_append.mpr ⟨?_, List.pairwise_cons.mpr ⟨hx, ordered⟩, ?_⟩
    · exact List.pairwise_map.mpr (List.pairwise_of_forall fun _ _ _ e => by cases e)
    · intro v hv w hw y e
      obtain ⟨z, hz, rfl⟩ := List.mem_map.mp hv
      have hzx : z < x := older x z (List.mem_filter.mp hz).1
      rcases List.mem_cons.mp hw with rfl | hw
      · cases e
        exact hzx
      · exact Nat.lt_trans hzx (hx w hw y e)
  awaited := by
    refine Awaited.expand_all ⟨fun z hz _ => ?_, h.awaited.mono rfl fun z hz => ⟨hz, ?_⟩⟩
    · rw [List.append_nil, List.mem_reverse, List.mem_filter]
      exact ⟨hz, by simpa using older x z hz⟩
    · exact fun hmem => List.mem_cons.mpr (.inl (List.mem_singleton.mp hmem))
  started y hy hp := by
    rw [Std.HashSet.contains_insert, Bool.or_eq_true, beq_iff_eq] at hy
    refine List.mem_append_right _ ?_
    rcases hy with rfl | hy
    · exact List.mem_cons_self
    · exact List.mem_cons_of_mem _
        ((List.mem_cons.mp (h.started y hy hp)).resolve_left (by rintro ⟨⟩))

/-- The sources of a tensor that a run comes back to are not pending. -/
theorem ready (h : Worklist s expanded (.finish x :: visits)) :
    ∀ z ∈ s.sources x, s.isPending z = false := by
  intro z hz
  by_contra hp
  cases h.awaited.1 z hz (by simpa using hp)

/-- Coming back to a tensor, after which it is not pending. -/
theorem finish (h : Worklist s expanded (.finish x :: visits)) (hs : s'.sources = s.sources)
    (hp : ∀ z, s'.isPending z = true → s.isPending z = true ∧ z ≠ x) :
    Worklist s' expanded visits where
  ordered := (List.pairwise_cons.mp h.ordered).2
  awaited := h.awaited.2.mono hs fun z hz => ⟨(hp z hz).1, fun hmem =>
    absurd (List.mem_singleton.mp hmem) (hp z hz).2⟩
  started y hy hpy := (List.mem_cons.mp (h.started y hy (hp y hpy).1)).resolve_left fun e =>
    (hp y hpy).2 (Visit.finish.inj e)

end Worklist

/-! ## Runs -/

/-- One tensor is computed from the other, directly or not. -/
def Needs (s : Session) : TensorId → TensorId → Prop :=
  Relation.ReflTransGen fun x z => z ∈ s.sources x

/-- Nothing becomes pending in a run. -/
theorem Realizes.settled {log : List (Request × Bool)} (h : Realizes s log s') {z : TensorId}
    (hz : s.isPending z = false) : s'.isPending z = false := by
  induction h with
  | done s => exact hz
  | succeed _ _ _ ih =>
    refine ih (eq_false_of_ne_true fun hp => ?_)
    rw [(isPending_markRealized.mp hp).1] at hz
    cases hz
  | fail _ _ => exact hz

theorem Realizes.cons {x : TensorId} {request : Request} {log : List (Request × Bool)}
    (asked : s.request? x = some request) (ready : ∀ z ∈ s.sources x, s.isPending z = false)
    (rest : Realizes (s.markRealized x) log s') : Realizes s ((request, true) :: log) s' := by
  obtain ⟨rfl, -⟩ := of_request? asked
  exact .succeed asked ready rest

theorem Realizes.single {x : TensorId} {request : Request} (asked : s.request? x = some request)
    (ready : ∀ z ∈ s.sources x, s.isPending z = false) : Realizes s [(request, false)] s := by
  obtain ⟨rfl, -⟩ := of_request? asked
  exact .fail asked ready

/-- What comes of working off a list of visits on behalf of a tensor. The run fails if one of its
requests does, and otherwise leaves no tensor to be visited pending. -/
structure Completes (s : Session) (x : TensorId) (visits : List Visit)
    (log : List (Request × Bool)) (outcome : Except SessionError Unit) (s' : Session) : Prop where
  realizes : Realizes s log s'
  needed : ∀ entry ∈ log, s.Needs x entry.1.tensor
  succeeds : outcome.isOk = log.all (·.2)
  visited : outcome = .ok () → ∀ v ∈ visits, s'.isPending v.tensor = false

namespace Completes

variable {x y : TensorId} {visits : List Visit} {request : Request} {log : List (Request × Bool)}
  {outcome : Except SessionError Unit}

/-- One more visit, to a tensor that is not pending in the end. -/
theorem visit (run : Completes s x visits log outcome s') {v : Visit}
    (hv : outcome = .ok () → s'.isPending v.tensor = false) :
    Completes s x (v :: visits) log outcome s' :=
  { run with visited := fun hok => List.forall_mem_cons.mpr ⟨hv hok, run.visited hok⟩ }

theorem settled (run : Completes s x visits log outcome s') {v : Visit}
    (hv : s.isPending v.tensor = false) : Completes s x (v :: visits) log outcome s' :=
  run.visit fun _ => run.realizes.settled hv

theorem subset {visits' : List Visit} (run : Completes s x visits' log outcome s')
    (h : visits ⊆ visits') : Completes s x visits log outcome s' :=
  { run with visited := fun hok v hv => run.visited hok v (h hv) }

/-- A failed request is the last one of a run. -/
theorem failed (asked : s.request? y = some request)
    (ready : ∀ z ∈ s.sources y, s.isPending z = false) (hy : s.Needs x y) {e : SessionError} :
    Completes s x visits [(request, false)] (.error e) s where
  realizes := .single asked ready
  needed := List.forall_mem_singleton.mpr ((of_request? asked).1 ▸ hy)
  succeeds := rfl
  visited hok := by cases hok

/-- After any other one the run goes on with the tensor realized. -/
theorem computed (asked : s.request? y = some request)
    (ready : ∀ z ∈ s.sources y, s.isPending z = false) (hy : s.Needs x y)
    (run : Completes (s.markRealized y) x visits log outcome s') :
    Completes s x (.finish y :: visits) ((request, true) :: log) outcome s' where
  realizes := .cons asked ready run.realizes
  needed := List.forall_mem_cons.mpr ⟨(of_request? asked).1 ▸ hy, run.needed⟩
  succeeds := run.succeeds
  visited hok := List.forall_mem_cons.mpr ⟨run.realizes.settled <| eq_false_of_ne_true fun hp =>
    (isPending_markRealized.mp hp).2 rfl, run.visited hok⟩

end Completes

theorem runVisits_completes (materialize : Materializer σ) {s : Session} {x : TensorId}
    (state : σ × List (Request × Bool)) (expanded : Std.HashSet TensorId) (visits : List Visit)
    (older : ∀ x, ∀ z ∈ s.sources x, z < x) (h : Worklist s expanded visits)
    (needed : ∀ v ∈ visits, s.Needs x v.tensor) :
    let (outcome, s', state') := runVisits materialize.logged s state expanded visits
    ∃ log, state'.2 = state.2 ++ log ∧ Completes s x visits log outcome s' := by
  fun_induction runVisits materialize.logged s state expanded visits with
  | case1 s state expanded =>
    exact ⟨[], (List.append_nil _).symm, .done s, by simp, rfl, by simp⟩
  | case2 s state expanded y rest hskip ih =>
    have needed := (List.forall_mem_cons.mp needed).2
    cases hp : s.isPending y with
    | false =>
      obtain ⟨log, hlog, run⟩ := ih older (h.skip hp) needed
      exact ⟨log, hlog, run.settled hp⟩
    | true =>
      have hexpanded : expanded.contains y = true := by simpa [hp] using hskip
      -- the return to the tensor is still to come
      have hfinish := (List.mem_cons.mp (h.started y hexpanded hp)).resolve_left (by rintro ⟨⟩)
      obtain ⟨log, hlog, run⟩ := ih older (h.repeated older hexpanded hp) needed
      exact ⟨log, hlog, run.visit fun hok => run.visited hok (.finish y) hfinish⟩
  | case3 s state expanded y rest hnew ih =>
    obtain ⟨hy, needed⟩ := List.forall_mem_cons.mp needed
    obtain ⟨log, hlog, run⟩ := ih older (h.expand older) fun v hv => by
      rcases List.mem_append.mp hv with hv | hv
      · obtain ⟨z, hz, rfl⟩ := List.mem_map.mp hv
        exact hy.tail (List.mem_filter.mp hz).1
      · rcases List.mem_cons.mp hv with rfl | hv
        · exact hy
        · exact needed v hv
    have run := run.subset (List.subset_append_right _ _)
    refine ⟨log, hlog, (run.subset (List.subset_cons_self _ _)).visit fun hok => ?_⟩
    exact run.visited hok (.finish y) List.mem_cons_self
  | case4 s state expanded y rest hnone ih =>
    have hp : s.isPending y = false := request?_eq_none.mp hnone
    have hrest : Worklist s expanded rest := h.finish rfl fun z hz =>
      ⟨hz, by rintro rfl; cases hp.symm.trans hz⟩
    obtain ⟨log, hlog, run⟩ := ih older hrest (List.forall_mem_cons.mp needed).2
    exact ⟨log, hlog, run.settled hp⟩
  | case5 s state expanded y rest request hrequest e state' hrun =>
    obtain ⟨-, hlog⟩ := Materializer.logged_eq hrun
    exact ⟨[(request, false)], hlog, .failed hrequest h.ready (needed _ List.mem_cons_self)⟩
  | case6 s state expanded y rest request hrequest state' hrun ih =>
    obtain ⟨hy, needed⟩ := List.forall_mem_cons.mp needed
    obtain ⟨-, hfirst⟩ := Materializer.logged_eq hrun
    have hrest : Worklist (s.markRealized y) expanded rest :=
      h.finish rfl fun z hz => isPending_markRealized.mp hz
    obtain ⟨log, hlog, run⟩ := ih older hrest needed
    refine ⟨(request, true) :: log, ?_, run.computed hrequest h.ready hy⟩
    rw [hlog, hfirst, List.append_assoc]
    rfl

/-! ## What a log tells -/

namespace Realizes

variable {log : List (Request × Bool)}

/-- A run changes what has been realized and nothing else. -/
theorem eq_withRealized (h : Realizes s log s') : ∃ realized, s' = { s with realized } := by
  induction h with
  | done s => exact ⟨s.realized, rfl⟩
  | succeed _ _ _ ih =>
    obtain ⟨realized, rfl⟩ := ih
    exact ⟨realized, rfl⟩
  | @fail s _ _ _ => exact ⟨s.realized, rfl⟩

/-- What has been realized is what was before and what the log says. -/
theorem isRealized_iff (h : Realizes s log s') {z : TensorId} :
    s'.isRealized z = true ↔ s.isRealized z = true ∨ z ∈ computed log := by
  induction h with
  | done s => simp [computed]
  | succeed _ _ _ ih =>
    rw [ih, isRealized_markRealized]
    simp only [computed, List.filter_cons_of_pos, List.map_cons, List.mem_cons]
    tauto
  | fail _ _ => simp [computed]

/-- Only pending tensors are computed, each once. -/
theorem computed_pending (h : Realizes s log s') :
    (computed log).Nodup ∧ ∀ z ∈ computed log, s.isPending z = true := by
  induction h with
  | done s => simp [computed]
  | @succeed s _ request log asked _ _ ih =>
    have hcons : computed ((request, true) :: log) = request.tensor :: computed log := rfl
    rw [hcons]
    refine ⟨List.nodup_cons.mpr ⟨fun hmem => ?_, ih.1⟩, fun z hz => ?_⟩
    · exact (isPending_markRealized.mp (ih.2 _ hmem)).2 rfl
    · rcases List.mem_cons.mp hz with rfl | hz
      · exact (of_request? asked).2
      · exact (isPending_markRealized.mp (ih.2 z hz)).1
  | fail _ _ => simp [computed]

/-- A tensor is asked for when it is pending and its sources are not, or have been computed before.
-/
theorem asked (h : Realizes s log s') {before after : List (Request × Bool)}
    {entry : Request × Bool} (hlog : log = before ++ entry :: after) :
    (∃ s₁, Realizes s before s₁ ∧ s₁.request? entry.1.tensor = some entry.1) ∧
      ∀ z ∈ s.sources entry.1.tensor, s.isPending z = false ∨ z ∈ computed before := by
  induction h generalizing before with
  | done s => simp at hlog
  | @succeed s s' request log asked ready rest ih =>
    rcases List.cons_eq_append_iff.mp hlog with ⟨rfl, hfirst⟩ | ⟨before, rfl, hrest⟩
    · cases hfirst
      exact ⟨⟨s, .done s, asked⟩, fun z hz => .inl (ready z hz)⟩
    · obtain ⟨⟨s₁, h₁, asked₁⟩, sources⟩ := ih hrest
      refine ⟨⟨s₁, .succeed asked ready h₁, asked₁⟩, fun z hz => ?_⟩
      have hcons : computed ((request, true) :: before) = request.tensor :: computed before := rfl
      rw [hcons, List.mem_cons]
      rcases sources z hz with hp | hz
      · rcases hs : s.isPending z with _ | _
        · exact .inl rfl
        · refine .inr (.inl ?_)
          by_contra hne
          rw [isPending_markRealized.mpr ⟨hs, hne⟩] at hp
          cases hp
      · exact .inr (.inr hz)
  | fail asked ready =>
    rcases List.cons_eq_append_iff.mp hlog with ⟨rfl, hlog⟩ | ⟨before, rfl, hlog⟩
    · cases hlog
      exact ⟨⟨_, .done _, asked⟩, fun z hz => .inl (ready z hz)⟩
    · simp at hlog

end Realizes

/-! ## Sessions whose realized tensors need nothing more -/

/-- The sources of a realized tensor are not pending. -/
def Settled (s : Session) : Prop :=
  ∀ x, s.isRealized x = true → ∀ z ∈ s.sources x, s.isPending z = false

theorem Realizes.settled_session {log : List (Request × Bool)} (h : Realizes s log s')
    (hs : s.Settled) : s'.Settled := by
  induction h with
  | done s => exact hs
  | @succeed s s' request log asked ready rest ih =>
    refine ih fun x hx z hz => eq_false_of_ne_true fun hp => ?_
    have hp := (isPending_markRealized.mp hp).1
    rcases isRealized_markRealized.mp hx with rfl | hx
    · cases (ready z hz).symm.trans hp
    · cases (hs x hx z hz).symm.trans hp
  | fail _ _ => exact hs

/-- A tensor that is not pending needs no pending tensor. -/
theorem Settled.of_needs (hs : s.Settled) {x z : TensorId} (hneeds : s.Needs x z)
    (hx : s.isPending x = false) : s.isPending z = false := by
  induction hneeds with
  | refl => exact hx
  | @tail y z _ hyz hy =>
    rcases hr : s.isRealized y with _ | _
    · -- the tensor is host data or none at all, and has no sources
      exfalso
      unfold isPending at hy
      rw [hr] at hy
      unfold sources at hyz
      split at hyz
      · rename_i t ht
        obtain ⟨shape, content⟩ := t
        cases content with
        | host data =>
          simp [Tensor.sources, Tensor.tree, OpTree.leaves, OpTree.walk, OpTree.Walk.visit] at hyz
        | deferred category tree => simp [ht, Tensor.category] at hy
      · cases hyz
    · exact hs y hr z hyz

end Session

end TensorLoom
