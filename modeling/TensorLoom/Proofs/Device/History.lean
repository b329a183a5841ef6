import TensorLoom.Proofs.Device.Requests

/-!
# What a device answers after any requests

A device is asked to allocate, copy, compile, launch and synchronize in any order, over buffers of
its own and of other devices, and any of the requests may be refused. The requests and what each of
them was answered with are its history. `Device.Grants` says once what a request does that is
granted; one that is not leaves the device as it is.

The history tells all that can be asked of the device (`Device.Faithful`): a buffer holds the data
of its last successful write, or zeros; the launches that were granted follow each other on the
clock without a gap, each for its cost; they are counted, those since the last synchronization
apart; and the compilations are listed in order. `Device.faithful_of_served` is the run of any
length.
-/

namespace TensorLoom

namespace Device

variable {τ : Type}

/-! ## Requests and replies -/

/-- A request to a device. A buffer of another device is allocated without it, but it takes an
identity from the same supply. -/
inductive Request where
  | alloc (len : Nat)
  | allocElsewhere (len : Nat)
  | write (b : Buffer) (data : Array Float32)
  | readExactly (b : Buffer) (len : Nat)
  | read (b : Buffer)
  | compile (name source : String)
  | launch (p : Program) (shape : LaunchShape) (buffers : List Buffer)
  | synchronize

/-- What a request is answered with when it is granted. -/
inductive Reply where
  | done
  | buffer (b : Buffer)
  | contents (data : Array Float32)
  | program (p : Program)
  | event (e : Event)

/-- The reply of a device to a request, and the device afterwards. -/
def reply (d : Device τ) : Request → Attempt DeviceError (Reply × Device τ)
  | .alloc len => do
    let (b, d) ← d.alloc len
    pure (.buffer b, d)
  | .allocElsewhere len => do
    let (b, d) ← d.allocElsewhere len
    pure (.buffer b, d)
  | .write b data => do
    let d ← (d.write b data).mapError Stop.refused
    pure (.done, d)
  | .readExactly b len => do
    let data ← (d.readExactly b len).mapError Stop.refused
    pure (.contents data, d)
  | .read b => do
    let data ← d.read b
    pure (.contents data, d)
  | .compile name source => do
    let (p, d) ← (d.compile name source).mapError Stop.refused
    pure (.program p, d)
  | .launch p shape buffers => do
    let (e, d) ← d.launch p shape buffers
    pure (.event e, d)
  | .synchronize => pure (.done, d.synchronize)

/-- The request as it is made in a sequence of requests. -/
def Request.perform (r : Request) : DeviceM τ KernelError Reply := DeviceM.request (·.reply r)

/-- What a device does with a request that it grants. -/
inductive Grants (d : Device τ) : Request → Reply → Device τ → Prop
  | alloc {len : Nat} (h : memoryFor len = .ok ()) :
    Grants d (.alloc len) (.buffer ⟨d.nextBuffer, len⟩) (d.allocated len)
  | allocElsewhere {len : Nat} (h : memoryFor len = .ok ()) :
    Grants d (.allocElsewhere len) (.buffer ⟨d.nextBuffer, len⟩)
      { d with nextBuffer := d.nextBuffer + 1 }
  | write {b : Buffer} {data : Array Float32} {s : Slot} (hs : d.memory[b.id]? = some s)
    (hlen : s.len = data.size) :
    Grants d (.write b data) .done { d with memory := d.memory.insert b.id ⟨s.len, some data⟩ }
  | readExactly {b : Buffer} {len : Nat} {data : Array Float32}
    (h : d.readExactly b len = .ok data) : Grants d (.readExactly b len) (.contents data) d
  | read {b : Buffer} {data : Array Float32} (h : d.read b = .ok data) :
    Grants d (.read b) (.contents data) d
  | compile {name source : String} (h : d.rejects source = false) :
    Grants d (.compile name source) (.program ⟨name, source⟩)
      { d with compiled := d.compiled.push (name, source) }
  | launch {p : Program} {shape : LaunchShape} {buffers : List Buffer} {n : Nat}
    (h : ∀ b ∈ buffers, b.id ∈ d.memory) (hcost : d.cost p.source shape = .ok (some n))
    (hfits : d.clock + n < Word.bound) :
    Grants d (.launch p shape buffers) (.event ⟨d.clock, d.clock + n⟩) (d.launched (d.clock + n))
  | synchronize : Grants d .synchronize .done d.synchronize

section Grants

variable {d d' : Device τ}

theorem slot_eq_ok {b : Buffer} {s : Slot} : d.slot b = .ok s ↔ d.memory[b.id]? = some s := by
  unfold slot
  cases d.memory[b.id]? <;> simp

theorem ticks_eq_ok {p : Program} {shape : LaunchShape} {buffers : List Buffer} {n : Nat} :
    d.ticks p shape buffers = .ok n ↔
      (∀ b ∈ buffers, b.id ∈ d.memory) ∧ d.cost p.source shape = .ok (some n) := by
  have hknown : (buffers.find? fun b => !d.memory.contains b.id) = none ↔
      ∀ b ∈ buffers, b.id ∈ d.memory := by
    simp
  unfold ticks
  constructor
  · intro h
    split at h
    · cases h
    refine ⟨hknown.mp ‹_›, ?_⟩
    obtain ⟨answer, hanswer, h⟩ := bind_eq_ok.mp h
    cases answer with
    | none => cases h
    | some ticks => exact pure_eq_ok.mp h ▸ liftM_eq_ok.mp hanswer
  · rintro ⟨hall, hcost⟩
    rw [hknown.mpr hall]
    exact bind_eq_ok.mpr ⟨_, liftM_eq_ok.mpr hcost, rfl⟩

/-- A request is answered exactly when it is granted. -/
theorem reply_eq_ok {r : Request} {a : Reply} : d.reply r = .ok (a, d') ↔ d.Grants r a d' := by
  constructor
  · intro h
    cases r with
    | alloc len =>
      obtain ⟨⟨b, d₁⟩, halloc, h⟩ := bind_eq_ok.mp h
      obtain ⟨⟨b', d₂⟩, helsewhere, halloc⟩ := bind_eq_ok.mp (liftM_eq_ok.mp halloc)
      obtain ⟨_, hmemory, helsewhere⟩ := bind_eq_ok.mp helsewhere
      cases helsewhere
      cases halloc
      cases h
      exact .alloc hmemory
    | allocElsewhere len =>
      obtain ⟨⟨b, d₁⟩, helsewhere, h⟩ := bind_eq_ok.mp h
      obtain ⟨_, hmemory, helsewhere⟩ := bind_eq_ok.mp (liftM_eq_ok.mp helsewhere)
      cases helsewhere
      cases h
      exact .allocElsewhere hmemory
    | write b data =>
      obtain ⟨d₁, hwrite, h⟩ := bind_eq_ok.mp h
      obtain ⟨s, hs, hwrite⟩ := bind_eq_ok.mp (mapError_eq_ok.mp hwrite)
      split at hwrite
      · cases hwrite
        cases h
        exact .write (slot_eq_ok.mp hs) ‹_›
      · cases hwrite
    | readExactly b len =>
      obtain ⟨data, hread, h⟩ := bind_eq_ok.mp h
      cases h
      exact .readExactly (mapError_eq_ok.mp hread)
    | read b =>
      obtain ⟨data, hread, h⟩ := bind_eq_ok.mp h
      cases h
      exact .read hread
    | compile name source =>
      obtain ⟨⟨p, d₁⟩, hcompile, h⟩ := bind_eq_ok.mp h
      have hcompile := mapError_eq_ok.mp hcompile
      unfold Device.compile at hcompile
      split at hcompile
      · cases hcompile
      · cases hcompile
        cases h
        exact .compile (Bool.eq_false_iff.mpr ‹_›)
    | launch p shape buffers =>
      obtain ⟨⟨e, d₁⟩, hlaunch, h⟩ := bind_eq_ok.mp h
      rw [launch_eq] at hlaunch
      obtain ⟨n, hticks, hlaunch⟩ := bind_eq_ok.mp hlaunch
      obtain ⟨stop, hstop, hlaunch⟩ := bind_eq_ok.mp hlaunch
      obtain ⟨hfits, rfl⟩ := Word.add_eq_ok.mp (liftM_eq_ok.mp hstop)
      cases hlaunch
      cases h
      obtain ⟨hknown, hcost⟩ := ticks_eq_ok.mp hticks
      exact .launch hknown hcost hfits
    | synchronize =>
      cases h
      exact .synchronize
  · intro h
    cases h with
    | alloc hlen =>
      have halloc : d.alloc _ = .ok (⟨d.nextBuffer, _⟩, d.allocated _) :=
        bind_eq_ok.mpr ⟨_, bind_eq_ok.mpr ⟨_, hlen, rfl⟩, rfl⟩
      exact bind_eq_ok.mpr ⟨_, liftM_eq_ok.mpr halloc, rfl⟩
    | allocElsewhere hlen =>
      have halloc : d.allocElsewhere _ = .ok (⟨d.nextBuffer, _⟩, _) :=
        bind_eq_ok.mpr ⟨_, hlen, rfl⟩
      exact bind_eq_ok.mpr ⟨_, liftM_eq_ok.mpr halloc, rfl⟩
    | @write b data s hs hlen =>
      have hwrite : d.write b data = .ok _ := bind_eq_ok.mpr ⟨s, slot_eq_ok.mpr hs, if_pos hlen⟩
      exact bind_eq_ok.mpr ⟨_, mapError_eq_ok.mpr hwrite, rfl⟩
    | readExactly hread => exact bind_eq_ok.mpr ⟨_, mapError_eq_ok.mpr hread, rfl⟩
    | read hread => exact bind_eq_ok.mpr ⟨_, hread, rfl⟩
    | @compile name source haccepted =>
      have hcompile : d.compile name source = .ok _ := if_neg (Bool.eq_false_iff.mp haccepted)
      exact bind_eq_ok.mpr ⟨_, mapError_eq_ok.mpr hcompile, rfl⟩
    | launch hknown hcost hfits =>
      have hticks := ticks_eq_ok.mpr ⟨hknown, hcost⟩
      exact bind_eq_ok.mpr ⟨_, launch_of_ticks hticks hfits, rfl⟩
    | synchronize => rfl

end Grants

/-! ## Histories -/

/-- A request with its outcome. -/
abbrev Entry := Request × Except (Stop KernelError) Reply

namespace Entry

/-- The buffer that a device has been asked for and has allocated. -/
def own : Entry → Option Buffer
  | (.alloc _, .ok (.buffer b)) => some b
  | _ => none

/-- The buffer that has been allocated on another device. -/
def foreign : Entry → Option Buffer
  | (.allocElsewhere _, .ok (.buffer b)) => some b
  | _ => none

/-- The data that has been written to a buffer. -/
def written (id : BufferId) : Entry → Option (Array Float32)
  | (.write b data, .ok _) => if b.id = id then some data else none
  | _ => none

/-- What has been launched, with the event of the launch. -/
def launched : Entry → Option (Program × LaunchShape × Event)
  | (.launch p shape _, .ok (.event e)) => some (p, shape, e)
  | _ => none

/-- What has been compiled. -/
def compiled : Entry → Option (String × String)
  | (.compile name source, .ok _) => some (name, source)
  | _ => none

/-- Whether the device has been synchronized. -/
def isSynchronized : Entry → Bool
  | (.synchronize, .ok _) => true
  | _ => false

end Entry

/-- What a device has been asked, the latest request first. -/
abbrev History := List Entry

namespace History

variable (h : History)

/-- The buffers of the device. -/
def own : List Buffer := h.filterMap Entry.own

/-- The buffers of other devices. -/
def foreign : List Buffer := h.filterMap Entry.foreign

/-- The data of the last successful write to a buffer. -/
def written (id : BufferId) : Option (Array Float32) := h.findSome? (Entry.written id)

/-- The launches that have been granted, the latest first. -/
def launched : List (Program × LaunchShape × Event) := h.filterMap Entry.launched

/-- The names and sources that have been compiled, the latest first. -/
def compiled : List (String × String) := h.filterMap Entry.compiled

/-- The part of the history since the last synchronization. -/
def unsynchronized : History := h.takeWhile fun e => !e.isSynchronized

end History

/-- The history of a device on which nothing has happened before, and the device it leaves. -/
inductive Served (cost : CostModel) (rejects : String → Bool) (scale : τ) :
    History → Device τ → Prop
  | new : Served cost rejects scale [] (new cost rejects scale)
  | step {h : History} {d : Device τ} (hs : Served cost rejects scale h d) (r : Request) :
    Served cost rejects scale ((r, (DeviceM.exec r.perform d).1) :: h)
      (DeviceM.exec r.perform d).2

namespace Served

variable {cost : CostModel} {rejects : String → Bool} {scale : τ} {h : History} {d d' : Device τ}
  {r : Request}

theorem grant (hs : Served cost rejects scale h d) {a : Reply} (hg : d.Grants r a d') :
    Served cost rejects scale ((r, .ok a) :: h) d' := by
  have hexec : DeviceM.exec r.perform d = (.ok a, d') := by
    rw [Request.perform, DeviceM.exec_request, reply_eq_ok.mpr hg]
  have hstep := hs.step r
  rwa [hexec] at hstep

theorem refuse (hs : Served cost rejects scale h d) {e : Stop DeviceError}
    (he : d.reply r = .error e) :
    Served cost rejects scale ((r, .error (e.mapRefusal .device)) :: h) d := by
  have hexec : DeviceM.exec r.perform d = (.error (e.mapRefusal .device), d) := by
    rw [Request.perform, DeviceM.exec_request, he]
  have hstep := hs.step r
  rwa [hexec] at hstep

end Served

/-- A request leaves the device as it is, or it is granted. -/
theorem exec_perform_cases (d : Device τ) (r : Request) :
    (∃ e, DeviceM.exec r.perform d = (.error e, d)) ∨
      ∃ a d', DeviceM.exec r.perform d = (.ok a, d') ∧ d.Grants r a d' := by
  rw [Request.perform, DeviceM.exec_request]
  rcases hreply : d.reply r with e | ⟨a, d'⟩
  · exact .inl ⟨_, rfl⟩
  · exact .inr ⟨a, d', rfl, reply_eq_ok.mp hreply⟩

/-! ## The store -/

/-- What is stored is what the history says. A buffer of the device holds what has been written
last, the others have no memory here, and no identity that may still be given away has any. -/
structure Stores (h : History) (d : Device τ) : Prop where
  own : ∀ b ∈ h.own, b.id < d.nextBuffer ∧ d.memory[b.id]? = some ⟨b.len, h.written b.id⟩
  foreign : ∀ b ∈ h.foreign, b.id < d.nextBuffer ∧ d.memory[b.id]? = none
  sized : ∀ b, b ∈ h.own ∨ b ∈ h.foreign → memoryFor b.len = .ok ()
  fresh : ∀ id, d.nextBuffer ≤ id → d.memory[id]? = none ∧ h.written id = none

namespace Stores

variable {h : History} {d d' : Device τ}

theorem new (cost : CostModel) (rejects : String → Bool) (scale : τ) :
    Stores [] (new cost rejects scale) where
  own _ hb := nomatch hb
  foreign _ hb := nomatch hb
  sized _ hb := hb.elim nofun nofun
  fresh _ _ := ⟨Std.HashMap.getElem?_empty, rfl⟩

/-- A request that has nothing to do with the store. -/
theorem frame (hs : Stores h d) {e : Entry} (hown : e.own = none) (hforeign : e.foreign = none)
    (hwritten : ∀ id, e.written id = none) (hmemory : d'.memory = d.memory)
    (hnext : d'.nextBuffer = d.nextBuffer) : Stores (e :: h) d' := by
  have hown : History.own (e :: h) = h.own := List.filterMap_cons_none hown
  have hforeign : History.foreign (e :: h) = h.foreign := List.filterMap_cons_none hforeign
  have hwritten : ∀ id, History.written (e :: h) id = h.written id := fun id =>
    List.findSome?_cons_of_isNone (Option.isNone_iff_eq_none.mpr (hwritten id))
  refine ⟨?_, ?_, ?_, ?_⟩
  · simpa only [hown, hwritten, hmemory, hnext] using hs.own
  · simpa only [hforeign, hmemory, hnext] using hs.foreign
  · simpa only [hown, hforeign] using hs.sized
  · simpa only [hwritten, hmemory, hnext] using hs.fresh

theorem getElem?_allocated {id : BufferId} (h : d.nextBuffer ≠ id) (len : Nat) :
    (d.allocated len).memory[id]? = d.memory[id]? := by
  rw [allocated, Std.HashMap.getElem?_insert, if_neg (by simpa using h)]

theorem alloc (hs : Stores h d) {len : Nat} (hlen : memoryFor len = .ok ()) :
    Stores ((.alloc len, .ok (.buffer ⟨d.nextBuffer, len⟩)) :: h) (d.allocated len) where
  own b hb := by
    rcases List.mem_cons.mp hb with rfl | hb
    · have hwritten := (hs.fresh d.nextBuffer (Nat.le_refl _)).2
      exact ⟨Nat.lt_succ_self _, Std.HashMap.getElem?_insert_self.trans
        (congrArg (fun w => some (Slot.mk len w)) hwritten.symm)⟩
    · obtain ⟨hlt, hmemory⟩ := hs.own b hb
      exact ⟨Nat.lt_succ_of_lt hlt, (getElem?_allocated (Nat.ne_of_gt hlt) len).trans hmemory⟩
  foreign b hb := by
    obtain ⟨hlt, hmemory⟩ := hs.foreign b hb
    exact ⟨Nat.lt_succ_of_lt hlt, (getElem?_allocated (Nat.ne_of_gt hlt) len).trans hmemory⟩
  sized b hb := by
    rcases hb with hb | hb
    · rcases List.mem_cons.mp hb with rfl | hb
      · exact hlen
      · exact hs.sized b (.inl hb)
    · exact hs.sized b (.inr hb)
  fresh id hid := by
    have hlt : d.nextBuffer < id := hid
    obtain ⟨hmemory, hwritten⟩ := hs.fresh id (Nat.le_of_lt hlt)
    exact ⟨(getElem?_allocated (Nat.ne_of_lt hlt) len).trans hmemory, hwritten⟩

theorem allocElsewhere (hs : Stores h d) {len : Nat} (hlen : memoryFor len = .ok ()) :
    Stores ((.allocElsewhere len, .ok (.buffer ⟨d.nextBuffer, len⟩)) :: h)
      { d with nextBuffer := d.nextBuffer + 1 } where
  own b hb := (hs.own b hb).imp_left Nat.lt_succ_of_lt
  foreign b hb := by
    rcases List.mem_cons.mp hb with rfl | hb
    · exact ⟨Nat.lt_succ_self _, (hs.fresh d.nextBuffer (Nat.le_refl _)).1⟩
    · exact (hs.foreign b hb).imp_left Nat.lt_succ_of_lt
  sized b hb := by
    rcases hb with hb | hb
    · exact hs.sized b (.inl hb)
    · rcases List.mem_cons.mp hb with rfl | hb
      · exact hlen
      · exact hs.sized b (.inr hb)
  fresh id hid := hs.fresh id (Nat.le_of_succ_le hid)

theorem write (hs : Stores h d) {b : Buffer} {data : Array Float32} {s : Slot}
    (hslot : d.memory[b.id]? = some s) :
    Stores ((.write b data, .ok .done) :: h)
      { d with memory := d.memory.insert b.id ⟨s.len, some data⟩ } where
  own c hc := by
    obtain ⟨hlt, hmemory⟩ := hs.own c hc
    refine ⟨hlt, ?_⟩
    dsimp only
    rw [Std.HashMap.getElem?_insert, History.written, List.findSome?_cons, Entry.written]
    by_cases hid : b.id = c.id
    · rw [hid, hmemory] at hslot
      cases hslot
      simp [hid]
    · simp only [beq_iff_eq, hid, if_false]
      exact hmemory
  foreign c hc := by
    obtain ⟨hlt, hmemory⟩ := hs.foreign c hc
    have hid : b.id ≠ c.id := by
      intro hid
      rw [hid, hmemory] at hslot
      cases hslot
    refine ⟨hlt, ?_⟩
    dsimp only
    rw [Std.HashMap.getElem?_insert, if_neg (by simpa using hid)]
    exact hmemory
  sized := hs.sized
  fresh id hid := by
    obtain ⟨hmemory, hwritten⟩ := hs.fresh id hid
    have hne : b.id ≠ id := by
      rintro rfl
      rw [hmemory] at hslot
      cases hslot
    dsimp only
    rw [Std.HashMap.getElem?_insert, History.written, List.findSome?_cons, Entry.written]
    simp only [beq_iff_eq, hne, if_false]
    exact ⟨hmemory, hwritten⟩

/-- What a request that is granted leaves stored. -/
theorem granted (hs : Stores h d) {r : Request} {a : Reply} (hg : d.Grants r a d') :
    Stores ((r, .ok a) :: h) d' := by
  cases hg with
  | alloc hlen => exact hs.alloc hlen
  | allocElsewhere hlen => exact hs.allocElsewhere hlen
  | write hslot _ => exact hs.write hslot
  | readExactly _ | read _ | compile _ | launch _ _ _ | synchronize =>
    exact hs.frame rfl rfl (fun _ => rfl) rfl rfl

end Stores

/-! ## The clock and the counters -/

/-- Launches, the latest first, that fill the time up to a tick: the first starts at 0, each other
one where the one before it has stopped, and each of them lasts as long as it costs. -/
inductive Tiles (cost : CostModel) : List (Program × LaunchShape × Event) → Nat → Prop
  | nil : Tiles cost [] 0
  | cons {launches : List (Program × LaunchShape × Event)} {p : Program} {shape : LaunchShape}
    {start n : Nat} (h : Tiles cost launches start) (hcost : cost p.source shape = .ok (some n)) :
    Tiles cost ((p, shape, ⟨start, start + n⟩) :: launches) (start + n)

/-- What is counted is what the history says. -/
structure Counts (cost : CostModel) (h : History) (d : Device τ) : Prop where
  model : d.cost = cost
  clock : Tiles cost h.launched d.clock
  launches : d.launches = h.launched.length
  pending : d.pending = (History.launched h.unsynchronized).length
  compiled : d.compiled.toList = h.compiled.reverse

namespace Counts

variable {cost : CostModel} {h : History} {d d' : Device τ}

/-- A request that has nothing to do with the counters. -/
theorem frame (hc : Counts cost h d) {e : Entry} (hlaunched : e.launched = none)
    (hcompiled : e.compiled = none) (hsync : e.isSynchronized = false) (hcost : d'.cost = d.cost)
    (hclock : d'.clock = d.clock) (hlaunches : d'.launches = d.launches)
    (hpending : d'.pending = d.pending) (hlist : d'.compiled = d.compiled) :
    Counts cost (e :: h) d' := by
  have hkept : History.launched (e :: h) = h.launched := List.filterMap_cons_none hlaunched
  have hpart : History.unsynchronized (e :: h) = e :: h.unsynchronized :=
    List.takeWhile_cons_of_pos (by rw [hsync]; rfl)
  have hpart' : History.launched (e :: h.unsynchronized) = History.launched h.unsynchronized :=
    List.filterMap_cons_none hlaunched
  have hsources : History.compiled (e :: h) = h.compiled := List.filterMap_cons_none hcompiled
  refine ⟨hcost.trans hc.model, ?_, ?_, ?_, ?_⟩
  · rw [hkept, hclock]
    exact hc.clock
  · rw [hkept, hlaunches]
    exact hc.launches
  · rw [hpart, hpart', hpending]
    exact hc.pending
  · rw [hsources, hlist]
    exact hc.compiled

/-- What a request that is granted leaves counted. -/
theorem granted (hc : Counts cost h d) {r : Request} {a : Reply} (hg : d.Grants r a d') :
    Counts cost ((r, .ok a) :: h) d' := by
  cases hg with
  | alloc _ | allocElsewhere _ | write _ _ | readExactly _ | read _ =>
    exact hc.frame rfl rfl rfl rfl rfl rfl rfl rfl
  | @compile name source _ =>
    refine ⟨hc.model, hc.clock, hc.launches, hc.pending, ?_⟩
    rw [Array.toList_push, hc.compiled]
    exact (List.reverse_cons ..).symm
  | launch _ hcost _ =>
    exact ⟨hc.model, hc.clock.cons (hc.model ▸ hcost), congrArg (· + 1) hc.launches,
      congrArg (· + 1) hc.pending, hc.compiled⟩
  | synchronize => exact ⟨hc.model, hc.clock, hc.launches, rfl, hc.compiled⟩

end Counts

/-! ## Every history -/

/-- A device is what its history says, whatever has been asked of it. -/
structure Faithful (cost : CostModel) (h : History) (d : Device τ) : Prop where
  /-- A buffer of the device reads as the data of its last successful write, or as zeros. -/
  read : ∀ b ∈ h.own, d.read b = .ok ((h.written b.id).getD (Array.replicate b.len 0))
  /-- Data can be written to it if there is as much of it as the buffer holds. -/
  write : ∀ b ∈ h.own, ∀ data : Array Float32,
    (data.size = b.len → ∃ d', d.write b data = .ok d') ∧
    (data.size ≠ b.len → d.write b data = .error (.sizeMismatch b.len data.size))
  /-- A buffer of another device is not known. -/
  unknown : ∀ b ∈ h.foreign,
    d.read b = .error (.refused (.unknownBuffer b.id)) ∧
    (∀ data, d.write b data = .error (.unknownBuffer b.id)) ∧
    ∀ p shape buffers, b ∈ buffers → ∀ a, d.launch p shape buffers ≠ .ok a
  /-- A request that is refused or faults changes nothing. -/
  unchanged : ∀ (r : Request) (e : Stop KernelError),
    (DeviceM.exec r.perform d).1 = .error e → (DeviceM.exec r.perform d).2 = d
  /-- The events of the launches tile the clock. -/
  clock : Tiles cost h.launched d.clock
  launches : d.launches = h.launched.length
  pending : d.pending = (History.launched h.unsynchronized).length
  compiled : d.compiled.toList = h.compiled.reverse

theorem faithful {cost : CostModel} {h : History} {d : Device τ} (hs : Stores h d)
    (hc : Counts cost h d) : Faithful cost h d where
  read b hb := by
    have hslot := slot_eq_ok.mpr (hs.own b hb).2
    rw [Device.read, hs.sized b (.inl hb), readExactly, hslot]
    change (Except.mapError Stop.refused (if b.len = b.len then _ else _)) = _
    rw [if_pos rfl]
    rfl
  write b hb data := by
    have hslot := slot_eq_ok.mpr (hs.own b hb).2
    rw [Device.write, hslot]
    constructor
    · intro hsize
      exact ⟨_, if_pos hsize.symm⟩
    · intro hsize
      exact if_neg fun hsize' => hsize hsize'.symm
  unknown b hb := by
    have hslot : d.slot b = .error (.unknownBuffer b.id) := by
      rw [slot, (hs.foreign b hb).2]
    refine ⟨?_, fun data => ?_, fun p shape buffers hmem a ha => ?_⟩
    · rw [Device.read, hs.sized b (.inr hb), readExactly, hslot]
      rfl
    · rw [Device.write, hslot]
      rfl
    · rw [launch_eq] at ha
      obtain ⟨n, hticks, -⟩ := bind_eq_ok.mp ha
      have hknown := (ticks_eq_ok.mp hticks).1 b hmem
      rw [Std.HashMap.mem_iff_isSome_getElem?, (hs.foreign b hb).2] at hknown
      cases hknown
  unchanged r e he := by
    rcases exec_perform_cases d r with ⟨e', hexec⟩ | ⟨a, d', hexec, -⟩
    · rw [hexec]
    · rw [hexec] at he
      cases he
  clock := hc.clock
  launches := hc.launches
  pending := hc.pending
  compiled := hc.compiled

/-- The simulated device is a faithful store with a tiled clock. After any requests, whether they
have been granted, refused or have faulted, it is what its history says. -/
theorem faithful_of_served {cost : CostModel} {rejects : String → Bool} {scale : τ} {h : History}
    {d : Device τ} (hserved : Served cost rejects scale h d) : Faithful cost h d := by
  suffices Stores h d ∧ Counts cost h d from faithful this.1 this.2
  induction hserved with
  | new => exact ⟨.new cost rejects scale, rfl, .nil, rfl, rfl, rfl⟩
  | @step h d _ r ih =>
    obtain ⟨hs, hc⟩ := ih
    rcases exec_perform_cases d r with ⟨e, hexec⟩ | ⟨a, d', hexec, hg⟩
    · rw [hexec]
      have hneutral : Entry.own (r, .error e) = none ∧ Entry.foreign (r, .error e) = none ∧
          (∀ id, Entry.written id (r, .error e) = none) ∧ Entry.launched (r, .error e) = none ∧
          Entry.compiled (r, .error e) = none ∧ Entry.isSynchronized (r, .error e) = false := by
        cases r <;> exact ⟨rfl, rfl, fun _ => rfl, rfl, rfl, rfl⟩
      obtain ⟨hown, hforeign, hwritten, hlaunched, hcompiled, hsync⟩ := hneutral
      exact ⟨hs.frame hown hforeign hwritten rfl rfl,
        hc.frame hlaunched hcompiled hsync rfl rfl rfl rfl rfl⟩
    · rw [hexec]
      exact ⟨hs.granted hg, hc.granted hg⟩

/-- Two launches of five ticks with a synchronization between them, after a write to a buffer of
another device and an empty source have been refused, and another source has been compiled. -/
theorem faithful_of_served_refusal :
    ∃ (h : History) (d : Device Unit),
      Served (fun _ _ => pure (some 5)) (· = "") () h d ∧ h.length = 9 ∧
      d.read ⟨0, 2⟩ = .ok #[1, 2] ∧ Tiles (fun _ _ => pure (some 5)) h.launched 10 ∧
      d.launches = 2 ∧ d.pending = 1 ∧ d.compiled.toList = [("sum", "void sum")] := by
  have hnew : Served (fun _ _ => pure (some 5)) (· = "") () [] _ := .new
  have hallocated := (hnew.grant (r := .alloc 2) (.alloc rfl)).grant (r := .allocElsewhere 2)
    (.allocElsewhere rfl)
  have hwritten := hallocated.grant (r := .write ⟨0, 2⟩ #[1, 2])
    (.write (s := ⟨2, none⟩) (by simp [allocated, new]) rfl)
  have hunknown := ((faithful_of_served hwritten).unknown ⟨1, 2⟩ List.mem_cons_self).2.1 #[3, 4]
  have hrefused := hwritten.refuse (r := .write ⟨1, 2⟩ #[3, 4]) (by rw [reply, hunknown]; rfl)
  have hrejected := hrefused.refuse (r := .compile "sum" "") rfl
  have hcompiled := hrejected.grant (r := .compile "sum" "void sum") (.compile rfl)
  have hlaunched := hcompiled.grant (r := .launch ⟨"sum", "void sum"⟩ .single [⟨0, 2⟩])
    (.launch (by simp) rfl (by decide))
  have hagain := (hlaunched.grant .synchronize).grant
    (r := .launch ⟨"sum", "void sum"⟩ .single [⟨0, 2⟩])
    (.launch (by simp [launched, synchronize]) rfl (by decide))
  have hfaithful := faithful_of_served hagain
  exact ⟨_, _, hagain, rfl, hfaithful.read ⟨0, 2⟩ List.mem_cons_self, hfaithful.clock,
    hfaithful.launches, hfaithful.pending, hfaithful.compiled⟩

end Device

end TensorLoom
