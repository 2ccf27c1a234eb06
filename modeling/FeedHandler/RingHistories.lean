import FeedHandler.RingHandshake
import FeedHandler.General.ReleaseAcquire

namespace FeedHandler

open Interleaving BoundedFifo ReleaseAcquire

/-- The ring under stale loads. Each slot's sequence is a modification history
whose entries carry the payload, and each party has its own view of each slot.
A cursor is only touched by its owner and needs no history. -/
structure StaleRing (R : RingSize) where
  slots : Fin R.val → Location UInt64 NormalizedTick
  producerView : Fin R.val → View NormalizedTick
  consumerView : Fin R.val → View NormalizedTick
  producer : UInt64
  consumer : UInt64
  dropped : UInt64
  publish : Publish
  consume : Consume
  stored : List NormalizedTick
  released : Nat
  published : List (NormalizedTick × Bool)
  consumed : List (Option NormalizedTick)

namespace StaleRing

variable {R : RingSize}

def new (R : RingSize) : StaleRing R where
  slots i := ⟨[(.ofNat i.val, .default)]⟩
  producerView _ := ⟨0, .default⟩
  consumerView _ := ⟨0, .default⟩
  producer := 0
  consumer := 0
  dropped := 0
  publish := .idle
  consume := .idle
  stored := []
  released := 0
  published := []
  consumed := []

def beginPublish (s : StaleRing R) (tick : NormalizedTick) : StaleRing R :=
  if s.publish.ready then { s with publish := .loadCursor tick } else s

def beginConsume (s : StaleRing R) : StaleRing R :=
  if s.consume.ready then { s with consume := .loadCursor } else s

/-- The next atomic step of `try_publish`. A load of the slot reads the entry
`pick`, and does nothing if the producer cannot read that one. -/
def producerStep (s : StaleRing R) (pick : Nat) : StaleRing R :=
  match s.publish with
  | .idle | .returned _ => s
  | .loadCursor tick => { s with publish := .loadSequence tick s.producer }
  | .loadSequence tick prod =>
    match (s.slots (R.slot prod)).load (s.producerView (R.slot prod)) pick with
    | none => s
    | some (value, view) =>
      { s with
        producerView := Function.update s.producerView (R.slot prod) view
        publish := if value ≠ prod then .countDrop tick else .writeTick tick prod }
  | .countDrop tick =>
    { s with
      dropped := s.dropped + 1
      publish := .returned false
      published := s.published ++ [(tick, false)] }
  | .writeTick tick prod =>
    { s with
      producerView := Function.update s.producerView (R.slot prod)
        ((s.producerView (R.slot prod)).write tick)
      publish := .storeSequence tick prod }
  | .storeSequence tick prod =>
    { s with
      slots := Function.update s.slots (R.slot prod)
        ((s.slots (R.slot prod)).store (s.producerView (R.slot prod)) (prod + 1))
      producerView := Function.update s.producerView (R.slot prod)
        ((s.producerView (R.slot prod)).stored (s.slots (R.slot prod)))
      publish := .storeCursor tick prod
      stored := s.stored ++ [tick] }
  | .storeCursor tick prod =>
    { s with
      producer := prod + 1
      publish := .returned true
      published := s.published ++ [(tick, true)] }

/-- The next atomic step of `try_consume`, with the same freedom at its load. -/
def consumerStep (s : StaleRing R) (pick : Nat) : StaleRing R :=
  match s.consume with
  | .idle | .returned _ => s
  | .loadCursor => { s with consume := .loadSequence s.consumer }
  | .loadSequence cons =>
    match (s.slots (R.slot cons)).load (s.consumerView (R.slot cons)) pick with
    | none => s
    | some (value, view) =>
      if value ≠ cons + 1 then
        { s with
          consumerView := Function.update s.consumerView (R.slot cons) view
          consume := .returned none
          consumed := s.consumed ++ [none] }
      else
        { s with
          consumerView := Function.update s.consumerView (R.slot cons) view
          consume := .readTick cons }
  | .readTick cons =>
    { s with consume := .storeSequence cons (s.consumerView (R.slot cons)).payload }
  | .storeSequence cons tick =>
    { s with
      slots := Function.update s.slots (R.slot cons)
        ((s.slots (R.slot cons)).store (s.consumerView (R.slot cons)) (cons + .ofNat R.val))
      consumerView := Function.update s.consumerView (R.slot cons)
        ((s.consumerView (R.slot cons)).stored (s.slots (R.slot cons)))
      consume := .storeCursor cons tick
      released := s.released + 1 }
  | .storeCursor cons tick =>
    { s with
      consumer := cons + 1
      consume := .returned (some tick)
      consumed := s.consumed ++ [some tick] }

/-- The ring that remains when only the newest entries are kept. -/
def current (s : StaleRing R) : RingState R where
  ring := {
    buffer := fun i => ⟨(s.slots i).newest.getD 0, (s.producerView i).payload⟩
    producer := s.producer
    consumer := s.consumer
    dropped := s.dropped }
  publish := s.publish
  consume := s.consume
  stored := s.stored
  released := s.released
  published := s.published
  consumed := s.consumed

end StaleRing

inductive StaleAction
  | publish (tick : NormalizedTick)
  | producer (pick : Nat)
  | consume
  | consumer (pick : Nat)
  deriving DecidableEq, Repr

/-- One producer and one consumer in any interleaving, every load free to be
as stale as its party's view allows. -/
def staleMachine (R : RingSize) : Machine (StaleRing R) StaleAction Empty where
  start := .new R
  step s
    | .publish tick => (s.beginPublish tick, [])
    | .producer pick => (s.producerStep pick, [])
    | .consume => (s.beginConsume, [])
    | .consumer pick => (s.consumerStep pick, [])

variable {R : RingSize}

/-- The slot a producer owns between its passed check and its release store. -/
def Publish.holds (i : Fin R.val) : Publish → Prop
  | .writeTick _ prod | .storeSequence _ prod => R.slot prod = i
  | _ => False

def Consume.holds (i : Fin R.val) : Consume → Prop
  | .readTick cons | .storeSequence cons _ => R.slot cons = i
  | _ => False

/-- The shape of the histories: two entries a lap, and no party can see
anything older than the last entry it has written. -/
structure Laps (slots : Fin R.val → Location UInt64 NormalizedTick)
    (producerView consumerView : Fin R.val → View NormalizedTick)
    (stored : List NormalizedTick) (released : Nat) : Prop where
  free : ∀ n v p, (slots (R.slot (.ofNat n))).entries[2 * (n / R.val)]? = some (v, p) →
    v = .ofNat n
  taken : ∀ n v p, (slots (R.slot (.ofNat n))).entries[2 * (n / R.val) + 1]? = some (v, p) →
    v = .ofNat (n + 1) ∧ stored[n]? = some p
  length : ∀ n, released ≤ n → n < released + R.val →
    (slots (R.slot (.ofNat n))).entries.length =
      2 * (n / R.val) + if n < stored.length then 2 else 1
  producerSeen : ∀ n, stored.length ≤ n → n < stored.length + R.val →
    2 * (n / R.val) ≤ (producerView (R.slot (.ofNat n))).seen + 1
  consumerSeen : ∀ n, released ≤ n → n < released + R.val →
    2 * (n / R.val) ≤ (consumerView (R.slot (.ofNat n))).seen

theorem RingSize.eq_of_slot_of_lap {n m : Nat} (slot : R.slot (.ofNat n) = R.slot (.ofNat m))
    (lap : n / R.val = m / R.val) : n = m := by
  have rest := R.slot_ofNat_eq_iff.mp slot
  rw [← Nat.div_add_mod n R.val, ← Nat.div_add_mod m R.val, lap, rest]

theorem RingSize.next_lap (n : Nat) : (n + R.val) / R.val = n / R.val + 1 :=
  Nat.add_div_right n R.pos

namespace Laps

variable {slots : Fin R.val → Location UInt64 NormalizedTick}
  {producerView consumerView : Fin R.val → View NormalizedTick}
  {stored : List NormalizedTick} {released pick : Nat} {value : UInt64}
  {view : View NormalizedTick} {tick : NormalizedTick}

theorem new : Laps (StaleRing.new R).slots (StaleRing.new R).producerView
    (StaleRing.new R).consumerView [] 0 where
  free n v p atIndex := by
    obtain ⟨bound, value⟩ := List.getElem?_eq_some_iff.mp atIndex
    have first : n / R.val = 0 := by
      simp only [StaleRing.new, List.length_singleton] at bound
      omega
    have slot : n % R.val = n := Nat.mod_eq_of_lt ((Nat.div_eq_zero_iff_lt R.pos).mp first)
    simp only [StaleRing.new, List.getElem_singleton, R.slot_ofNat, slot] at value
    cases value
    rfl
  taken n v p atIndex := by
    have bound := (List.getElem?_eq_some_iff.mp atIndex).1
    simp only [StaleRing.new, List.length_singleton] at bound
    omega
  length n _ inside := by
    have first : n / R.val = 0 := Nat.div_eq_of_lt (by omega)
    simp only [StaleRing.new, List.length_singleton, first, List.length_nil]
    rfl
  producerSeen n _ inside := by
    rw [List.length_nil, Nat.zero_add] at inside
    rw [Nat.div_eq_of_lt inside]
    exact Nat.zero_le _
  consumerSeen n _ inside := by
    rw [Nat.zero_add] at inside
    rw [Nat.div_eq_of_lt inside]
    exact Nat.zero_le _

theorem producerLook (laps : Laps slots producerView consumerView stored released) {i : Fin R.val}
    (fresh : (producerView i).seen ≤ view.seen) :
    Laps slots (Function.update producerView i view) consumerView stored released where
  free := laps.free
  taken := laps.taken
  length := laps.length
  producerSeen n past inside := by
    have before := laps.producerSeen n past inside
    rw [Function.update_apply]
    split
    · rename_i same
      rw [same] at before
      omega
    · exact before
  consumerSeen := laps.consumerSeen

theorem consumerLook (laps : Laps slots producerView consumerView stored released) {i : Fin R.val}
    (fresh : (consumerView i).seen ≤ view.seen) :
    Laps slots producerView (Function.update consumerView i view) stored released where
  free := laps.free
  taken := laps.taken
  length := laps.length
  producerSeen := laps.producerSeen
  consumerSeen n past inside := by
    have before := laps.consumerSeen n past inside
    rw [Function.update_apply]
    split
    · rename_i same
      rw [same] at before
      omega
    · exact before

theorem update_store_entry {i j : Fin R.val} {k : Nat} {v : UInt64} {p : NormalizedTick}
    (atIndex : (Function.update slots i ((slots i).store view value) j).entries[k]? =
      some (v, p)) :
    (slots j).entries[k]? = some (v, p) ∨
      j = i ∧ k = (slots i).entries.length ∧ v = value ∧ p = view.payload := by
  rw [Function.update_apply] at atIndex
  split at atIndex
  · rename_i same
    subst same
    exact (store_entry atIndex).imp_right fun last => ⟨rfl, last⟩
  · exact Or.inl atIndex

theorem store (laps : Laps slots producerView consumerView stored released)
    (lower : released ≤ stored.length) (room : stored.length < released + R.val)
    (payload : (producerView (R.slot (.ofNat stored.length))).payload = tick) :
    Laps
      (Function.update slots (R.slot (.ofNat stored.length))
        ((slots (R.slot (.ofNat stored.length))).store
          (producerView (R.slot (.ofNat stored.length))) (.ofNat (stored.length + 1))))
      (Function.update producerView (R.slot (.ofNat stored.length))
        ((producerView (R.slot (.ofNat stored.length))).stored
          (slots (R.slot (.ofNat stored.length)))))
      consumerView (stored ++ [tick]) released where
  free n v p atIndex := by
    have length := laps.length stored.length lower room
    rw [if_neg (Nat.lt_irrefl _)] at length
    rcases update_store_entry atIndex with old | ⟨_, index, _, _⟩
    · exact laps.free n v p old
    · omega
  taken n v p atIndex := by
    have length := laps.length stored.length lower room
    rw [if_neg (Nat.lt_irrefl _)] at length
    rcases update_store_entry atIndex with old | ⟨slot, index, rfl, rfl⟩
    · obtain ⟨word, inside⟩ := laps.taken n v p old
      have bound := (List.getElem?_eq_some_iff.mp inside).1
      exact ⟨word, by rwa [List.getElem?_append_left bound]⟩
    · obtain rfl : n = stored.length := RingSize.eq_of_slot_of_lap slot (by omega)
      exact ⟨rfl, by rw [List.getElem?_concat_length, payload]⟩
  length n past inside := by
    rw [List.length_append, List.length_singleton]
    by_cases here : n = stored.length
    · subst here
      have length := laps.length stored.length lower room
      rw [if_neg (Nat.lt_irrefl _)] at length
      rw [Function.update_self, length_store, length, if_pos (Nat.lt_succ_self _)]
    · have elsewhere : R.slot (.ofNat n) ≠ R.slot (.ofNat stored.length) := by
        rcases Nat.lt_or_gt_of_ne here with before | after
        · exact R.slot_ne before (by omega)
        · exact (R.slot_ne after (by omega)).symm
      have length := laps.length n past inside
      rw [Function.update_of_ne elsewhere, length]
      have same : (n < stored.length) = (n < stored.length + 1) := propext (by omega)
      simp only [same]
  producerSeen n past inside := by
    rw [List.length_append, List.length_singleton] at past inside
    have length := laps.length stored.length lower room
    rw [if_neg (Nat.lt_irrefl _)] at length
    by_cases lapped : n = stored.length + R.val
    · subst lapped
      rw [R.slot_add_val, Function.update_self, RingSize.next_lap, View.stored]
      dsimp only
      omega
    · rw [Function.update_of_ne (R.slot_ne (by omega) (by omega)).symm]
      exact laps.producerSeen n (by omega) (by omega)
  consumerSeen := laps.consumerSeen

theorem release (laps : Laps slots producerView consumerView stored released)
    (upper : stored.length ≤ released + R.val) (ready : released < stored.length) :
    Laps
      (Function.update slots (R.slot (.ofNat released))
        ((slots (R.slot (.ofNat released))).store
          (consumerView (R.slot (.ofNat released))) (.ofNat (released + R.val))))
      producerView
      (Function.update consumerView (R.slot (.ofNat released))
        ((consumerView (R.slot (.ofNat released))).stored (slots (R.slot (.ofNat released)))))
      stored (released + 1) where
  free n v p atIndex := by
    have length := laps.length released le_rfl (by have size := R.pos; omega)
    rw [if_pos ready] at length
    rcases update_store_entry atIndex with old | ⟨slot, index, rfl, _⟩
    · exact laps.free n v p old
    · have lap : n / R.val = (released + R.val) / R.val := by
        rw [RingSize.next_lap]
        omega
      rw [← R.slot_add_val released] at slot
      rw [RingSize.eq_of_slot_of_lap slot lap]
  taken n v p atIndex := by
    have length := laps.length released le_rfl (by have size := R.pos; omega)
    rw [if_pos ready] at length
    rcases update_store_entry atIndex with old | ⟨_, index, _, _⟩
    · exact laps.taken n v p old
    · omega
  length n past inside := by
    by_cases lapped : n = released + R.val
    · subst lapped
      have length := laps.length released le_rfl (by have size := R.pos; omega)
      rw [if_pos ready] at length
      rw [R.slot_add_val, Function.update_self, length_store, length, if_neg (by omega),
        RingSize.next_lap]
      omega
    · rw [Function.update_of_ne (R.slot_ne (by omega) (by omega)).symm]
      exact laps.length n (by omega) (by omega)
  producerSeen := laps.producerSeen
  consumerSeen n past inside := by
    by_cases lapped : n = released + R.val
    · subst lapped
      have length := laps.length released le_rfl (by have size := R.pos; omega)
      rw [if_pos ready] at length
      rw [R.slot_add_val, Function.update_self, RingSize.next_lap, View.stored]
      dsimp only
      omega
    · rw [Function.update_of_ne (R.slot_ne (by omega) (by omega)).symm]
      exact laps.consumerSeen n (by omega) (by omega)

/-- A load by the producer passes its check only on the newest entry of a slot
that is free. On a full ring it sees the oldest stored tick. -/
theorem publish_load (laps : Laps slots producerView consumerView stored released)
    (lower : released ≤ stored.length) (upper : stored.length ≤ released + R.val)
    (loaded : (slots (R.slot (.ofNat stored.length))).load
      (producerView (R.slot (.ofNat stored.length))) pick = some (value, view)) :
    (value = .ofNat stored.length →
      pick + 1 = (slots (R.slot (.ofNat stored.length))).entries.length ∧
        stored.length < released + R.val) ∧
    (stored.length = released + R.val → stored[released]? = some view.payload) := by
  obtain ⟨fresh, bound, _, entry⟩ := load_eq_some loaded
  have size := R.two_le
  have wrap := R.lt_wrap
  have seen := laps.producerSeen stored.length le_rfl (by omega)
  by_cases room : stored.length < released + R.val
  · have length := laps.length stored.length lower room
    rw [if_neg (Nat.lt_irrefl _)] at length
    refine ⟨fun passed => ⟨?_, room⟩, fun full => by omega⟩
    by_contra stale
    have previous : pick + 1 = 2 * (stored.length / R.val) := by omega
    have lapped : R.val ≤ stored.length := by
      by_contra first
      rw [Nat.div_eq_of_lt (by omega)] at previous
      omega
    obtain ⟨n, shift⟩ := Nat.exists_eq_add_of_le' lapped
    rw [shift, RingSize.next_lap] at previous
    rw [shift, R.slot_add_val, show pick = 2 * (n / R.val) + 1 by omega] at entry
    have older := (laps.taken n value _ entry).1
    rw [passed] at older
    exact ofNat_ne_of_near (by omega) (by omega) older.symm
  · have full : stored.length = released + R.val := by omega
    have length := laps.length released le_rfl (by omega)
    rw [if_pos (by omega)] at length
    rw [full, R.slot_add_val] at bound entry
    rw [full, RingSize.next_lap, R.slot_add_val] at seen
    rw [full, R.slot_add_val] at fresh
    rw [show pick = 2 * (released / R.val) + 1 by omega] at entry
    obtain ⟨older, oldest⟩ := laps.taken released value _ entry
    refine ⟨fun passed => ?_, fun _ => oldest⟩
    rw [older, full] at passed
    exact absurd passed (ofNat_ne_of_near (by omega) (by omega))

/-- A load by the consumer passes its check only on the newest entry of a slot
that holds the tick it is due, and that tick becomes visible. -/
theorem consume_load (laps : Laps slots producerView consumerView stored released)
    (loaded : (slots (R.slot (.ofNat released))).load
      (consumerView (R.slot (.ofNat released))) pick = some (value, view))
    (passed : value = .ofNat (released + 1)) :
    pick + 1 = (slots (R.slot (.ofNat released))).entries.length ∧
      released < stored.length ∧ stored[released]? = some view.payload := by
  obtain ⟨fresh, bound, _, entry⟩ := load_eq_some loaded
  have size := R.pos
  have seen := laps.consumerSeen released le_rfl (by omega)
  have length := laps.length released le_rfl (by omega)
  by_cases same : pick = 2 * (released / R.val)
  · rw [same] at entry
    have older := laps.free released value _ entry
    rw [passed] at older
    exact absurd older.symm (ofNat_ne_of_near (Nat.lt_succ_self _) (by omega))
  · by_cases ready : released < stored.length
    · rw [if_pos ready] at length
      have newest : pick = 2 * (released / R.val) + 1 := by omega
      rw [newest] at entry
      exact ⟨by omega, ready, (laps.taken released value _ entry).2⟩
    · rw [if_neg ready] at length
      omega

end Laps

/-- The payload the consumer is about to read is the tick it is due. -/
def StaleRing.Visible (s : StaleRing R) : Prop :=
  ∀ cons, s.consume = .readTick cons →
    s.stored[s.released]? = some (s.consumerView (R.slot cons)).payload

/-- The invariant of the ring under stale loads. -/
structure Coherent (s : StaleRing R) : Prop where
  shake : Handshake s.current
  laps : Laps s.slots s.producerView s.consumerView s.stored s.released
  visible : s.Visible

namespace StaleRing

variable {s : StaleRing R} {i : Fin R.val} {view : View NormalizedTick} {value : UInt64}

/-- Only the payload of one slot changes when the producer's view of it does. -/
theorem buffer_look :
    (fun j => ⟨(s.slots j).newest.getD 0, (Function.update s.producerView i view j).payload⟩) =
      Function.update s.current.ring.buffer i
        { s.current.ring.buffer i with tick := view.payload } := by
  funext j
  simp only [Function.update_apply, current]
  split
  · rename_i same
    rw [same]
  · rfl

/-- Only the sequence of one slot changes when an entry is stored there. -/
theorem buffer_store {producerView : Fin R.val → View NormalizedTick}
    (same : ∀ j, (producerView j).payload = (s.producerView j).payload) :
    (fun j => ⟨(Function.update s.slots i ((s.slots i).store view value) j).newest.getD 0,
        (producerView j).payload⟩) =
      Function.update s.current.ring.buffer i
        { s.current.ring.buffer i with sequence := value } := by
  funext j
  simp only [Function.update_apply, current, same]
  split
  · rename_i here
    rw [here, newest_store, Option.getD_some]
  · rfl

theorem current_write (tick : NormalizedTick) (publish : Publish) :
    ({ s with
      producerView := Function.update s.producerView i ((s.producerView i).write tick)
      publish } : StaleRing R).current =
      { s.current with ring := s.current.ring.writeTick i tick, publish } := by
  have same := @buffer_look R s i ((s.producerView i).write tick)
  exact congrArg (fun buffer =>
    ({ s.current with ring := { s.current.ring with buffer }, publish } : RingState R)) same

theorem current_publishStore (publish : Publish) (stored : List NormalizedTick) :
    ({ s with
      slots := Function.update s.slots i ((s.slots i).store (s.producerView i) value)
      producerView := Function.update s.producerView i ((s.producerView i).stored (s.slots i))
      publish
      stored } : StaleRing R).current =
      { s.current with ring := s.current.ring.storeSequence i value, publish, stored } := by
  have same (j : Fin R.val) :
      (Function.update s.producerView i ((s.producerView i).stored (s.slots i)) j).payload =
        (s.producerView j).payload := by
    rw [Function.update_apply]
    split
    · rename_i here
      rw [here, View.stored]
    · rfl
  have stores := @buffer_store R s i (s.producerView i) value _ same
  exact congrArg (fun buffer =>
    ({ s.current with ring := { s.current.ring with buffer }, publish, stored } : RingState R))
    stores

theorem current_release (consume : Consume) (released : Nat) (view : View NormalizedTick)
    (consumerView : Fin R.val → View NormalizedTick) :
    ({ s with
      slots := Function.update s.slots i ((s.slots i).store view value)
      consumerView
      consume
      released } : StaleRing R).current =
      { s.current with ring := s.current.ring.storeSequence i value, consume, released } := by
  have stores := @buffer_store R s i view value s.producerView fun _ => rfl
  exact congrArg (fun buffer =>
    ({ s.current with ring := { s.current.ring with buffer }, consume, released } : RingState R))
    stores

end StaleRing

namespace Coherent

variable {s : StaleRing R} {pick : Nat} {value : UInt64} {view : View NormalizedTick}

theorem new : Coherent (.new R) where
  shake := .new
  laps := .new
  visible _ stage := nomatch stage

theorem beginPublish (coherent : Coherent s) (tick : NormalizedTick) :
    Coherent (s.beginPublish tick) := by
  have shake := coherent.shake.beginPublish tick
  unfold StaleRing.beginPublish
  split
  · rename_i free
    rw [RingState.beginPublish, if_pos (show s.current.publish.ready from free)] at shake
    exact ⟨shake, coherent.laps, coherent.visible⟩
  · exact coherent

theorem beginConsume (coherent : Coherent s) : Coherent s.beginConsume := by
  have shake := coherent.shake.beginConsume
  unfold StaleRing.beginConsume
  split
  · rename_i free
    rw [RingState.beginConsume, if_pos (show s.current.consume.ready from free)] at shake
    exact ⟨shake, coherent.laps, fun _ stage => (by cases stage)⟩
  · exact coherent

/-- What a load brings into the producer's view changes nothing the ring relies on. -/
theorem look (coherent : Coherent s) {tick : NormalizedTick}
    (stage : s.publish = .loadSequence tick (.ofNat s.stored.length))
    (loaded : (s.slots (R.slot (.ofNat s.stored.length))).load
      (s.producerView (R.slot (.ofNat s.stored.length))) pick = some (value, view)) :
    Coherent { s with
      producerView := Function.update s.producerView (R.slot (.ofNat s.stored.length)) view } := by
  have slots := coherent.shake.slots
  have producing : Producing s.current.ring s.stored s.released s.publish := coherent.shake.producing
  rw [stage] at producing
  have oldest := (coherent.laps.publish_load slots.released_le slots.stored_le loaded).2
  obtain ⟨fresh, _, seen, _⟩ := load_eq_some loaded
  refine ⟨⟨?_, ?_, coherent.shake.consuming⟩,
    coherent.laps.producerLook (fresh.trans_eq seen.symm), coherent.visible⟩
  · simp only [StaleRing.current, StaleRing.buffer_look]
    by_cases room : s.stored.length < s.released + R.val
    · exact slots.writeTick room view.payload
    · have full : s.stored.length = s.released + R.val :=
        Nat.le_antisymm slots.stored_le (Nat.not_lt.mp room)
      have here := slots.readable s.released _ le_rfl (oldest full)
      have same : ({ s.current.ring.buffer (R.slot (.ofNat s.stored.length)) with
          tick := view.payload } : RingBufferNode) =
            s.current.ring.buffer (R.slot (.ofNat s.stored.length)) := by
        rw [full, R.slot_add_val, here]
      rw [Function.update_eq_self_iff.mpr same]
      exact slots
  · change Producing _ s.stored s.released s.publish
    rw [stage]
    exact producing

theorem producerStep (coherent : Coherent s) (pick : Nat) : Coherent (s.producerStep pick) := by
  have next := coherent.shake.producerStep
  have producing : Producing s.current.ring s.stored s.released s.publish := coherent.shake.producing
  unfold StaleRing.producerStep
  unfold RingState.producerStep at next
  cases stage : s.publish with
  | idle | returned _ => exact coherent
  | loadCursor tick =>
    rw [show s.current.publish = .loadCursor tick from stage] at next
    exact ⟨next, coherent.laps, coherent.visible⟩
  | loadSequence tick prod =>
    rw [stage] at producing
    obtain ⟨_, rfl⟩ := producing
    dsimp only
    split
    · exact coherent
    · rename_i value view loaded
      have looked := coherent.look stage loaded
      have slots := coherent.shake.slots
      split
      · exact ⟨looked.shake.refuse stage, looked.laps, looked.visible⟩
      · rename_i passed
        have room := ((coherent.laps.publish_load slots.released_le slots.stored_le loaded).1
          (not_not.mp passed)).2
        exact ⟨looked.shake.grant stage room, looked.laps, looked.visible⟩
  | countDrop tick =>
    rw [show s.current.publish = .countDrop tick from stage] at next
    exact ⟨next, coherent.laps, coherent.visible⟩
  | writeTick tick prod =>
    rw [show s.current.publish = .writeTick tick prod from stage] at next
    refine ⟨?_, coherent.laps.producerLook le_rfl, coherent.visible⟩
    rw [StaleRing.current_write]
    exact next
  | storeSequence tick prod =>
    rw [show s.current.publish = .storeSequence tick prod from stage] at next
    rw [stage] at producing
    obtain ⟨_, rfl, room, payload⟩ := producing
    simp only [ofNat_add_one] at next ⊢
    refine ⟨?_, coherent.laps.store coherent.shake.slots.released_le room payload, ?_⟩
    · rw [StaleRing.current_publishStore]
      exact next
    · intro cons reading
      have due := coherent.visible cons reading
      have inside := (List.getElem?_eq_some_iff.mp due).1
      exact (List.getElem?_append_left inside).trans due
  | storeCursor tick prod =>
    rw [show s.current.publish = .storeCursor tick prod from stage] at next
    exact ⟨next, coherent.laps, coherent.visible⟩

theorem consumerStep (coherent : Coherent s) (pick : Nat) : Coherent (s.consumerStep pick) := by
  have next := coherent.shake.consumerStep
  have consuming : Consuming s.current.ring s.stored s.released s.current.returned s.consume :=
    coherent.shake.consuming
  unfold StaleRing.consumerStep
  unfold RingState.consumerStep at next
  cases stage : s.consume with
  | idle | returned _ => exact coherent
  | loadCursor =>
    rw [show s.current.consume = .loadCursor from stage] at next
    exact ⟨next, coherent.laps, fun _ later => nomatch later⟩
  | loadSequence cons =>
    rw [stage] at consuming
    obtain ⟨_, _, rfl⟩ := consuming
    dsimp only
    split
    · exact coherent
    · rename_i value view loaded
      obtain ⟨fresh, _, seen, _⟩ := load_eq_some loaded
      have laps := coherent.laps.consumerLook (fresh.trans_eq seen.symm)
      split
      · exact ⟨coherent.shake.miss stage, laps, fun _ later => nomatch later⟩
      · rename_i passed
        obtain ⟨_, ready, due⟩ :=
          coherent.laps.consume_load loaded ((not_not.mp passed).trans (ofNat_add_one _))
        refine ⟨coherent.shake.fetch stage ready, laps, ?_⟩
        intro cons later
        cases later
        dsimp only
        rw [Function.update_self]
        exact due
  | readTick cons =>
    rw [stage] at consuming
    obtain ⟨cursor, answers, loaded, _⟩ := consuming
    refine ⟨⟨coherent.shake.slots, coherent.shake.producing, cursor, answers, loaded, ?_⟩,
      coherent.laps, fun _ later => nomatch later⟩
    exact coherent.visible cons stage
  | storeSequence cons tick =>
    rw [show s.current.consume = .storeSequence cons tick from stage] at next
    rw [stage] at consuming
    obtain ⟨_, _, rfl, due⟩ := consuming
    have ready := (List.getElem?_eq_some_iff.mp due).1
    have word : UInt64.ofNat s.released + .ofNat R.val = .ofNat (s.released + R.val) :=
      (UInt64.ofNat_add _ _).symm
    simp only [word] at next ⊢
    refine ⟨?_, coherent.laps.release coherent.shake.slots.stored_le ready,
      fun _ later => nomatch later⟩
    rw [StaleRing.current_release]
    exact next
  | storeCursor cons tick =>
    rw [show s.current.consume = .storeCursor cons tick from stage] at next
    exact ⟨next, coherent.laps, fun _ later => nomatch later⟩

theorem step (coherent : Coherent s) (action : StaleAction) :
    Coherent ((staleMachine R).step s action).1 := by
  cases action with
  | publish tick => exact coherent.beginPublish tick
  | producer pick => exact coherent.producerStep pick
  | consume => exact coherent.beginConsume
  | consumer pick => exact coherent.consumerStep pick

end Coherent

theorem reach_coherent {history : List Empty} {s : StaleRing R}
    (reach : (staleMachine R).Reach history s) : Coherent s := by
  refine reach.invariant ?_ ?_
  · exact .new
  · exact fun _ _ action coherent => coherent.step action

namespace Handshake

variable {s : RingState R} {i : Fin R.val}

theorem publish_holds (shake : Handshake s) (holds : s.publish.holds i) :
    R.slot (.ofNat s.stored.length) = i ∧ s.stored.length < s.released + R.val := by
  have producing := shake.producing
  cases stage : s.publish with
  | idle | returned _ | loadCursor _ | loadSequence _ _ | countDrop _ | storeCursor _ _ =>
    rw [stage] at holds
    exact False.elim holds
  | writeTick tick prod =>
    rw [stage] at holds producing
    obtain ⟨_, rfl, room⟩ := producing
    exact ⟨holds, room⟩
  | storeSequence tick prod =>
    rw [stage] at holds producing
    obtain ⟨_, rfl, room, _⟩ := producing
    exact ⟨holds, room⟩

theorem consume_holds (shake : Handshake s) (holds : s.consume.holds i) :
    R.slot (.ofNat s.released) = i ∧ s.released < s.stored.length := by
  have consuming := shake.consuming
  cases stage : s.consume with
  | idle | returned _ | loadCursor | loadSequence _ | storeCursor _ _ =>
    rw [stage] at holds
    exact False.elim holds
  | readTick cons =>
    rw [stage] at holds consuming
    obtain ⟨_, _, rfl, ready⟩ := consuming
    exact ⟨holds, ready⟩
  | storeSequence cons tick =>
    rw [stage] at holds consuming
    obtain ⟨_, _, rfl, due⟩ := consuming
    exact ⟨holds, (List.getElem?_eq_some_iff.mp due).1⟩

/-- The two parties work on slots less than a lap apart. -/
theorem apart (shake : Handshake s) : ¬ (s.publish.holds i ∧ s.consume.holds i) := by
  intro both
  obtain ⟨here, room⟩ := shake.publish_holds both.1
  obtain ⟨there, ready⟩ := shake.consume_holds both.2
  exact R.slot_ne ready room (there.trans here.symm)

end Handshake

namespace Coherent

variable {s : StaleRing R} {tick : NormalizedTick} {prod cons value : UInt64} {pick : Nat}
  {view : View NormalizedTick}

theorem publishNewest (coherent : Coherent s) (stage : s.publish = .loadSequence tick prod)
    (loaded : (s.slots (R.slot prod)).load (s.producerView (R.slot prod)) pick =
      some (value, view)) (passed : value = prod) :
    pick + 1 = (s.slots (R.slot prod)).entries.length := by
  have producing : Producing s.current.ring s.stored s.released s.publish := coherent.shake.producing
  have slots := coherent.shake.slots
  rw [stage] at producing
  obtain ⟨_, rfl⟩ := producing
  exact ((coherent.laps.publish_load slots.released_le slots.stored_le loaded).1 passed).1

theorem consumeNewest (coherent : Coherent s) (stage : s.consume = .loadSequence cons)
    (loaded : (s.slots (R.slot cons)).load (s.consumerView (R.slot cons)) pick =
      some (value, view)) (passed : value = cons + 1) :
    pick + 1 = (s.slots (R.slot cons)).entries.length := by
  have consuming : Consuming s.current.ring s.stored s.released s.current.returned s.consume :=
    coherent.shake.consuming
  rw [stage] at consuming
  obtain ⟨_, _, rfl⟩ := consuming
  exact (coherent.laps.consume_load loaded (passed.trans (ofNat_add_one _))).1

theorem read (coherent : Coherent s) (stage : s.consume = .storeSequence cons tick) :
    s.stored[s.released]? = some tick := by
  have consuming : Consuming s.current.ring s.stored s.released s.current.returned s.consume :=
    coherent.shake.consuming
  rw [stage] at consuming
  exact consuming.2.2.2

/-- A load that misses the newest entry ends the call with a drop. -/
theorem stalePublish (coherent : Coherent s) (stage : s.publish = .loadSequence tick prod)
    (loaded : (s.slots (R.slot prod)).load (s.producerView (R.slot prod)) pick =
      some (value, view)) (stale : pick + 1 < (s.slots (R.slot prod)).entries.length) :
    (s.producerStep pick).publish = .countDrop tick ∧ (s.producerStep pick).slots = s.slots := by
  have failed : value ≠ prod := fun passed =>
    stale.ne (coherent.publishNewest stage loaded passed)
  simp only [StaleRing.producerStep, stage, loaded, if_pos failed, and_self]

theorem staleConsume (coherent : Coherent s) (stage : s.consume = .loadSequence cons)
    (loaded : (s.slots (R.slot cons)).load (s.consumerView (R.slot cons)) pick =
      some (value, view)) (stale : pick + 1 < (s.slots (R.slot cons)).entries.length) :
    (s.consumerStep pick).consume = .returned none ∧ (s.consumerStep pick).slots = s.slots := by
  have failed : value ≠ cons + 1 := fun passed =>
    stale.ne (coherent.consumeNewest stage loaded passed)
  simp only [StaleRing.consumerStep, stage, loaded, if_pos failed, and_self]

end Coherent

/-- Exclusive slot ownership under stale loads: a check passes only on the
newest entry, the parties never hold one slot together, what is read is the
complete tick that is due, and an older entry only ends the call early. -/
structure Exclusive (s : StaleRing R) : Prop where
  publishNewest : ∀ tick prod pick value view, s.publish = .loadSequence tick prod →
    (s.slots (R.slot prod)).load (s.producerView (R.slot prod)) pick = some (value, view) →
      value = prod → pick + 1 = (s.slots (R.slot prod)).entries.length
  consumeNewest : ∀ cons pick value view, s.consume = .loadSequence cons →
    (s.slots (R.slot cons)).load (s.consumerView (R.slot cons)) pick = some (value, view) →
      value = cons + 1 → pick + 1 = (s.slots (R.slot cons)).entries.length
  apart : ∀ i : Fin R.val, ¬ (s.publish.holds i ∧ s.consume.holds i)
  complete : ∀ cons, s.consume = .readTick cons →
    s.stored[s.released]? = some (s.consumerView (R.slot cons)).payload
  read : ∀ cons tick, s.consume = .storeSequence cons tick → s.stored[s.released]? = some tick
  stalePublish : ∀ tick prod pick value view, s.publish = .loadSequence tick prod →
    (s.slots (R.slot prod)).load (s.producerView (R.slot prod)) pick = some (value, view) →
      pick + 1 < (s.slots (R.slot prod)).entries.length →
        (s.producerStep pick).publish = .countDrop tick ∧ (s.producerStep pick).slots = s.slots
  staleConsume : ∀ cons pick value view, s.consume = .loadSequence cons →
    (s.slots (R.slot cons)).load (s.consumerView (R.slot cons)) pick = some (value, view) →
      pick + 1 < (s.slots (R.slot cons)).entries.length →
        (s.consumerStep pick).consume = .returned none ∧ (s.consumerStep pick).slots = s.slots
  returned : s.consumed.reduceOption <+: s.stored
  released_le : s.released ≤ s.stored.length
  unreleased : s.stored.length ≤ s.released + R.val

/-- Whatever admissible entry each load returns, in any interleaving. -/
theorem stale_loads_keep_slots_exclusive (R : RingSize) (actions : List StaleAction) :
    Exclusive ((staleMachine R).run actions) := by
  have coherent := reach_coherent (Machine.reach_run (M := staleMachine R) actions)
  exact {
    publishNewest := fun _ _ _ _ _ stage loaded => coherent.publishNewest stage loaded
    consumeNewest := fun _ _ _ _ stage loaded => coherent.consumeNewest stage loaded
    apart := fun _ => coherent.shake.apart
    complete := coherent.visible
    read := fun _ _ stage => coherent.read stage
    stalePublish := fun _ _ _ _ _ stage loaded => coherent.stalePublish stage loaded
    staleConsume := fun _ _ _ _ stage loaded => coherent.staleConsume stage loaded
    returned := coherent.shake.returned_prefix
    released_le := coherent.shake.slots.released_le
    unreleased := coherent.shake.slots.stored_le }

end FeedHandler
