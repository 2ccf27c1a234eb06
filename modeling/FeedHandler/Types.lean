import Mathlib.Data.Vector.Basic

namespace FeedHandler

/-- A fixed-point price, scale 1e-8. Prices compare as their raw words. -/
structure Price where
  raw : UInt64
  deriving DecidableEq, Inhabited, Repr

/-- A fixed-point quantity, scale 1e-8. -/
structure Qty where
  raw : UInt64
  deriving DecidableEq, Inhabited, Repr

instance : Ord Price where
  compare a b := compare a.raw b.raw

instance : Zero Price := ⟨⟨0⟩⟩

instance : Zero Qty := ⟨⟨0⟩⟩

/-- A counter and the number it counts move together. -/
theorem ofNat_add_one (n : Nat) : UInt64.ofNat n + 1 = .ofNat (n + 1) :=
  (UInt64.ofNat_add n 1).symm

def Qty.isZero (qty : Qty) : Bool := qty.raw == 0

theorem Qty.isZero_iff {qty : Qty} : qty.isZero = true ↔ qty = 0 := by
  cases qty
  simp only [isZero, beq_iff_eq]
  exact ⟨fun same => congrArg Qty.mk same, fun same => congrArg Qty.raw same⟩

/-- Sixteen raw bytes, padded with NULs. -/
structure Symbol where
  bytes : Vector UInt8 16
  deriving DecidableEq, Repr

/-- Longer input is truncated silently, shorter input is padded with zeros. -/
def Symbol.fromBytes (b : List UInt8) : Symbol :=
  ⟨Vector.ofFn fun i => b.getD i.val 0⟩

inductive Exchange
  | binance
  | bybit
  | hyperliquid
  deriving DecidableEq, Repr

/-- The `repr(u8)` discriminant. -/
def Exchange.toU8 : Exchange → UInt8
  | .binance => 0
  | .bybit => 1
  | .hyperliquid => 2

inductive Side
  | bid
  | ask
  deriving DecidableEq, Repr

/-- The `repr(u8)` discriminant. -/
def Side.toU8 : Side → UInt8
  | .bid => 0
  | .ask => 1

/-- One normalized tick. The derived equality of the source includes the
crate-private pad byte, so the pad is a field here too. -/
structure NormalizedTick where
  price : Price
  qty : Qty
  sequence : UInt64
  tsExchangeNs : UInt64
  tsRecvNs : UInt64
  symbol : Symbol
  exchange : Exchange
  side : Side
  isSnapshot : Bool
  alignPad : UInt8
  snapshotId : UInt32
  deriving DecidableEq, Repr

/-- The public constructor, which pins the pad byte to zero. -/
def NormalizedTick.new (price : Price) (qty : Qty) (sequence tsExchangeNs tsRecvNs : UInt64)
    (symbol : Symbol) (exchange : Exchange) (side : Side) (isSnapshot : Bool)
    (snapshotId : UInt32) : NormalizedTick :=
  { price, qty, sequence, tsExchangeNs, tsRecvNs, symbol, exchange, side, isSnapshot,
    alignPad := 0, snapshotId }

/-- `NormalizedTick::default()`, the payload of a fresh ring slot. -/
def NormalizedTick.default : NormalizedTick :=
  .new 0 0 0 0 0 (.fromBytes []) .binance .bid false 0

/-- A plain bid tick of an unnamed symbol, for concrete runs. -/
def bidTick (price qty seq : UInt64) : NormalizedTick :=
  .new ⟨price⟩ ⟨qty⟩ seq 0 0 (.fromBytes []) .binance .bid false 0

structure Level where
  price : Price
  qty : Qty
  deriving DecidableEq, Inhabited, Repr

def Level.empty : Level := ⟨0, 0⟩

inductive DeltaResult
  | updated
  | inserted
  | removed
  | insertedEvicted
  | noOp
  | discarded
  deriving DecidableEq, Repr

end FeedHandler
