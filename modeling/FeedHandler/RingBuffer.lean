import FeedHandler.Types
import FeedHandler.General.Machine
import FeedHandler.General.BoundedFifo
import Mathlib.Data.Nat.ModEq
import Mathlib.Data.List.ReduceOption

namespace FeedHandler

open Interleaving BoundedFifo

/-- `RING_SIZE`: a power of two, at least two, that a `usize` can hold. -/
structure RingSize where
  exponent : Nat
  positive : 0 < exponent
  fits : exponent < 64
  deriving DecidableEq, Repr

namespace RingSize

variable (R : RingSize)

def val : Nat := 2 ^ R.exponent

/-- The value of the ordinary build. -/
def standard : RingSize := ⟨12, by decide, by decide⟩

/-- The value of the build for the model checker. -/
def loom : RingSize := ⟨1, by decide, by decide⟩

example : standard.val = 4096 ∧ loom.val = 2 := ⟨rfl, rfl⟩

def mask : UInt64 := .ofNat (R.val - 1)

theorem two_le : 2 ≤ R.val := Nat.pow_le_pow_right Nat.two_pos R.positive

theorem lt_wrap : R.val < 2 ^ 64 := Nat.pow_lt_pow_right Nat.one_lt_two R.fits

theorem pos : 0 < R.val := Nat.two_pow_pos R.exponent

theorem dvd_wrap : R.val ∣ 2 ^ 64 := Nat.pow_dvd_pow 2 R.fits.le

/-- Masking a cursor is taking it modulo the ring size. -/
theorem and_mask (cursor : UInt64) : (cursor &&& R.mask).toNat = cursor.toNat % R.val := by
  have small : R.val - 1 < 2 ^ 64 := Nat.lt_of_le_of_lt (Nat.sub_le _ _) R.lt_wrap
  rw [UInt64.toNat_and, mask, UInt64.toNat_ofNat_of_lt' small, val, Nat.and_two_pow_sub_one_eq_mod]

/-- The slot a cursor value addresses. -/
def slot (cursor : UInt64) : Fin R.val :=
  ⟨(cursor &&& R.mask).toNat, R.and_mask cursor ▸ Nat.mod_lt _ R.pos⟩

theorem slot_ofNat (n : Nat) : (R.slot (.ofNat n)).val = n % R.val := by
  have masked := R.and_mask (.ofNat n)
  rw [UInt64.toNat_ofNat', Nat.mod_mod_of_dvd _ R.dvd_wrap] at masked
  exact masked

theorem slot_ofNat_eq_iff {n m : Nat} :
    R.slot (.ofNat n) = R.slot (.ofNat m) ↔ n % R.val = m % R.val := by
  rw [Fin.ext_iff, slot_ofNat, slot_ofNat]

theorem slot_add_val (n : Nat) : R.slot (.ofNat (n + R.val)) = R.slot (.ofNat n) :=
  R.slot_ofNat_eq_iff.mpr (Nat.add_mod_right n R.val)

/-- Cursor values less than one lap apart address different slots. -/
theorem slot_ne {n m : Nat} (apart : n < m) (near : m < n + R.val) :
    R.slot (.ofNat n) ≠ R.slot (.ofNat m) := by
  intro same
  have multiple : R.val ∣ m - n := (Nat.modEq_iff_dvd' apart.le).mp (R.slot_ofNat_eq_iff.mp same)
  have long := Nat.le_of_dvd (by omega) multiple
  omega

end RingSize

/-- Two counts less than a whole wrap apart differ as machine words. -/
theorem ofNat_ne_of_near {n m : Nat} (apart : n < m) (near : m < n + 2 ^ 64) :
    UInt64.ofNat n ≠ UInt64.ofNat m := by
  intro same
  have words := congrArg UInt64.toNat same
  rw [UInt64.toNat_ofNat', UInt64.toNat_ofNat'] at words
  omega

/-- One slot: its handshake counter and its payload. -/
structure RingBufferNode where
  sequence : UInt64
  tick : NormalizedTick
  deriving DecidableEq, Repr

structure SpscDisruptor (R : RingSize) where
  buffer : Fin R.val → RingBufferNode
  producer : UInt64
  consumer : UInt64
  dropped : UInt64

namespace SpscDisruptor

variable {R : RingSize}

def new (R : RingSize) : SpscDisruptor R where
  buffer i := ⟨.ofNat i.val, .default⟩
  producer := 0
  consumer := 0
  dropped := 0

def writeTick (ring : SpscDisruptor R) (i : Fin R.val) (tick : NormalizedTick) : SpscDisruptor R :=
  { ring with buffer := Function.update ring.buffer i { ring.buffer i with tick } }

def storeSequence (ring : SpscDisruptor R) (i : Fin R.val) (sequence : UInt64) : SpscDisruptor R :=
  { ring with buffer := Function.update ring.buffer i { ring.buffer i with sequence } }

variable {ring : SpscDisruptor R} {i j : Fin R.val} {tick : NormalizedTick} {sequence : UInt64}

theorem writeTick_tick : ((ring.writeTick i tick).buffer i).tick = tick := by
  simp only [writeTick, Function.update_self]

theorem storeSequence_tick :
    ((ring.storeSequence i sequence).buffer j).tick = (ring.buffer j).tick := by
  simp only [storeSequence, Function.update_apply]
  split
  · rename_i same
    rw [same]
  · rfl

end SpscDisruptor

/-- Where the producer stands in `try_publish`, named after what it does next. -/
inductive Publish
  | idle
  | loadCursor (tick : NormalizedTick)
  | loadSequence (tick : NormalizedTick) (prod : UInt64)
  | countDrop (tick : NormalizedTick)
  | writeTick (tick : NormalizedTick) (prod : UInt64)
  | storeSequence (tick : NormalizedTick) (prod : UInt64)
  | storeCursor (tick : NormalizedTick) (prod : UInt64)
  | returned (ok : Bool)
  deriving DecidableEq, Repr

/-- Where the consumer stands in `try_consume`, named after what it does next. -/
inductive Consume
  | idle
  | loadCursor
  | loadSequence (cons : UInt64)
  | readTick (cons : UInt64)
  | storeSequence (cons : UInt64) (tick : NormalizedTick)
  | storeCursor (cons : UInt64) (tick : NormalizedTick)
  | returned (answer : Option NormalizedTick)
  deriving DecidableEq, Repr

/-- No call is in progress. -/
def Publish.ready : Publish → Bool
  | .idle | .returned _ => true
  | _ => false

def Consume.ready : Consume → Bool
  | .idle | .returned _ => true
  | _ => false

/-- The ring and its two parties. The last four fields are history: the ticks
whose slot the producer has stored, how many of them the consumer has released
by its own slot store, and the answers of the finished calls. -/
structure RingState (R : RingSize) where
  ring : SpscDisruptor R
  publish : Publish
  consume : Consume
  stored : List NormalizedTick
  released : Nat
  published : List (NormalizedTick × Bool)
  consumed : List (Option NormalizedTick)

namespace RingState

variable {R : RingSize}

def new (R : RingSize) : RingState R where
  ring := .new R
  publish := .idle
  consume := .idle
  stored := []
  released := 0
  published := []
  consumed := []

/-- The ticks `try_consume` has returned so far. -/
def returned (s : RingState R) : List NormalizedTick := s.consumed.reduceOption

def beginPublish (s : RingState R) (tick : NormalizedTick) : RingState R :=
  if s.publish.ready then { s with publish := .loadCursor tick } else s

def beginConsume (s : RingState R) : RingState R :=
  if s.consume.ready then { s with consume := .loadCursor } else s

/-- The next atomic step of `try_publish`. A refused offer takes effect at the
load of the slot, an accepted one at the store. -/
def producerStep (s : RingState R) : RingState R × List (Op NormalizedTick) :=
  match s.publish with
  | .idle | .returned _ => (s, [])
  | .loadCursor tick => ({ s with publish := .loadSequence tick s.ring.producer }, [])
  | .loadSequence tick prod =>
    if (s.ring.buffer (R.slot prod)).sequence ≠ prod then
      ({ s with publish := .countDrop tick }, [.offer tick false])
    else ({ s with publish := .writeTick tick prod }, [])
  | .countDrop tick =>
    ({ s with
        ring := { s.ring with dropped := s.ring.dropped + 1 }
        publish := .returned false
        published := s.published ++ [(tick, false)] }, [])
  | .writeTick tick prod =>
    ({ s with
        ring := s.ring.writeTick (R.slot prod) tick
        publish := .storeSequence tick prod }, [])
  | .storeSequence tick prod =>
    ({ s with
        ring := s.ring.storeSequence (R.slot prod) (prod + 1)
        publish := .storeCursor tick prod
        stored := s.stored ++ [tick] }, [.offer tick true])
  | .storeCursor tick prod =>
    ({ s with
        ring := { s.ring with producer := prod + 1 }
        publish := .returned true
        published := s.published ++ [(tick, true)] }, [])

/-- The next atomic step of `try_consume`. An empty poll takes effect at the
load of the slot, any other at the store. -/
def consumerStep (s : RingState R) : RingState R × List (Op NormalizedTick) :=
  match s.consume with
  | .idle | .returned _ => (s, [])
  | .loadCursor => ({ s with consume := .loadSequence s.ring.consumer }, [])
  | .loadSequence cons =>
    if (s.ring.buffer (R.slot cons)).sequence ≠ cons + 1 then
      ({ s with consume := .returned none, consumed := s.consumed ++ [none] }, [.poll none])
    else ({ s with consume := .readTick cons }, [])
  | .readTick cons =>
    ({ s with consume := .storeSequence cons (s.ring.buffer (R.slot cons)).tick }, [])
  | .storeSequence cons tick =>
    ({ s with
        ring := s.ring.storeSequence (R.slot cons) (cons + .ofNat R.val)
        consume := .storeCursor cons tick
        released := s.released + 1 }, [.poll (some tick)])
  | .storeCursor cons tick =>
    ({ s with
        ring := { s.ring with consumer := cons + 1 }
        consume := .returned (some tick)
        consumed := s.consumed ++ [some tick] }, [])

end RingState

inductive RingAction
  | publish (tick : NormalizedTick)
  | producer
  | consume
  | consumer
  deriving DecidableEq, Repr

/-- One producer and one consumer in any interleaving. -/
def ringMachine (R : RingSize) : Machine (RingState R) RingAction (Op NormalizedTick) where
  start := .new R
  step s
    | .publish tick => (s.beginPublish tick, [])
    | .producer => s.producerStep
    | .consume => (s.beginConsume, [])
    | .consumer => s.consumerStep

end FeedHandler
