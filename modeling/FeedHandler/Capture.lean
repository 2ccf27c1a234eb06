import FeedHandler.Types
import FeedHandler.General.ByteOrder
import FeedHandler.General.ReprC
import FeedHandler.General.ByteStream

namespace FeedHandler

open ByteOrder ReprC ByteStream

/-- The fields of `NormalizedTick`. -/
inductive TickField
  | price
  | qty
  | sequence
  | tsExchangeNs
  | tsRecvNs
  | symbol
  | exchange
  | side
  | isSnapshot
  | alignPad
  | snapshotId
  deriving DecidableEq, Repr

/-- The `repr(C, align(64))` layout, fields in declaration order. -/
def tickLayout : Layout TickField where
  fields := [.price, .qty, .sequence, .tsExchangeNs, .tsRecvNs, .symbol, .exchange, .side,
    .isSnapshot, .alignPad, .snapshotId]
  size
    | .price | .qty | .sequence | .tsExchangeNs | .tsRecvNs => 8
    | .symbol => 16
    | .exchange | .side | .isSnapshot | .alignPad => 1
    | .snapshotId => 4
  align
    | .price | .qty | .sequence | .tsExchangeNs | .tsRecvNs => 8
    | .symbol | .exchange | .side | .isSnapshot | .alignPad => 1
    | .snapshotId => 4
  structAlign := 64

def tickSize : Nat := tickLayout.sizeOf

def exchangeOffset : Nat := tickLayout.offsetOf .exchange

def sideOffset : Nat := tickLayout.offsetOf .side

def isSnapshotOffset : Nat := tickLayout.offsetOf .isSnapshot

theorem tickSize_eq : tickSize = 64 := by decide

/-- The pad byte is a field, so no byte of a tick is left to the compiler. -/
theorem tickLayout_packed : tickLayout.Packed := by
  unfold Layout.Packed
  decide

theorem tickLayout_nodup : tickLayout.fields.Nodup := by decide

theorem TickField.mem_fields (field : TickField) : field ∈ tickLayout.fields := by
  cases field <;> decide

namespace NormalizedTick

/-- The bytes a field occupies in memory. -/
def fieldBytes (endian : Endian) (tick : NormalizedTick) : TickField → List UInt8
  | .price => endian.toBytes 8 tick.price.raw.toNat
  | .qty => endian.toBytes 8 tick.qty.raw.toNat
  | .sequence => endian.toBytes 8 tick.sequence.toNat
  | .tsExchangeNs => endian.toBytes 8 tick.tsExchangeNs.toNat
  | .tsRecvNs => endian.toBytes 8 tick.tsRecvNs.toNat
  | .symbol => tick.symbol.bytes.toList
  | .exchange => [tick.exchange.toU8]
  | .side => [tick.side.toU8]
  | .isSnapshot => [tick.isSnapshot.toUInt8]
  | .alignPad => [tick.alignPad]
  | .snapshotId => endian.toBytes 4 tick.snapshotId.toNat

theorem length_fieldBytes {endian : Endian} {tick : NormalizedTick} (field : TickField) :
    (tick.fieldBytes endian field).length = tickLayout.size field := by
  cases field with
  | symbol => exact Vector.length_toList
  | exchange | side | isSnapshot | alignPad => rfl
  | price | qty | sequence | tsExchangeNs | tsRecvNs | snapshotId => exact Endian.length_toBytes ..

/-- The tick as `slice::from_raw_parts` sees it. -/
def asBytes (endian : Endian) (tick : NormalizedTick) : Vector UInt8 tickSize :=
  ⟨(tickLayout.image (tick.fieldBytes endian)).toArray,
    Layout.length_image tickLayout_packed length_fieldBytes⟩

theorem slice_asBytes {endian : Endian} {tick : NormalizedTick} (field : TickField) :
    tickLayout.slice (tick.asBytes endian).toList field = tick.fieldBytes endian field :=
  Layout.slice_image tickLayout_packed length_fieldBytes field.mem_fields

end NormalizedTick

def Exchange.ofU8 : UInt8 → Option Exchange :=
  variantOf [.binance, .bybit, .hyperliquid] Exchange.toU8

def Side.ofU8 : UInt8 → Option Side :=
  variantOf [.bid, .ask] Side.toU8

def boolOfU8 : UInt8 → Option Bool :=
  variantOf [false, true] Bool.toUInt8

/-- `ptr::read_unaligned` of a tick. A bit pattern that is invalid for its
field is undefined behaviour in the source, no value here. -/
def readUnaligned (endian : Endian) (buf : Vector UInt8 tickSize) : Option NormalizedTick := do
  let field := tickLayout.slice buf.toList
  let byte := fun f => (field f).headD 0
  let exchange ← Exchange.ofU8 (byte .exchange)
  let side ← Side.ofU8 (byte .side)
  let isSnapshot ← boolOfU8 (byte .isSnapshot)
  return {
    price := ⟨.ofNat (endian.ofBytes (field .price))⟩
    qty := ⟨.ofNat (endian.ofBytes (field .qty))⟩
    sequence := .ofNat (endian.ofBytes (field .sequence))
    tsExchangeNs := .ofNat (endian.ofBytes (field .tsExchangeNs))
    tsRecvNs := .ofNat (endian.ofBytes (field .tsRecvNs))
    symbol := ⟨Vector.ofFn fun i => (field .symbol).getD i.val 0⟩
    exchange
    side
    isSnapshot
    alignPad := byte .alignPad
    snapshotId := .ofNat (endian.ofBytes (field .snapshotId)) }

def badDiscriminant (field : String) (val : UInt8) : Error :=
  ⟨.invalidData, s!"corrupt capture record: {field} discriminant {val} is out of range"⟩

def validateRecord (buf : Vector UInt8 tickSize) : Except Error Unit :=
  let exchange := buf.get ⟨exchangeOffset, by decide⟩
  if exchange > Exchange.hyperliquid.toU8 then .error (badDiscriminant "exchange" exchange)
  else
    let side := buf.get ⟨sideOffset, by decide⟩
    if side > Side.ask.toU8 then .error (badDiscriminant "side" side)
    else
      let isSnapshot := buf.get ⟨isSnapshotOffset, by decide⟩
      if isSnapshot > 1 then .error (badDiscriminant "is_snapshot" isSnapshot)
      else .ok ()

/-- The three restricted bytes are discriminants of their types. -/
def InRange (buf : Vector UInt8 tickSize) : Prop :=
  buf.get ⟨exchangeOffset, by decide⟩ ≤ 2 ∧ buf.get ⟨sideOffset, by decide⟩ ≤ 1 ∧
    buf.get ⟨isSnapshotOffset, by decide⟩ ≤ 1

instance (buf : Vector UInt8 tickSize) : Decidable (InRange buf) :=
  inferInstanceAs (Decidable (_ ∧ _ ∧ _))

theorem validateRecord_of_inRange {buf : Vector UInt8 tickSize} (valid : InRange buf) :
    validateRecord buf = .ok () := by
  obtain ⟨exchange, side, isSnapshot⟩ := valid
  have exchange := UInt8.not_lt.mpr exchange
  have side := UInt8.not_lt.mpr side
  have isSnapshot := UInt8.not_lt.mpr isSnapshot
  exact (if_neg exchange).trans ((if_neg side).trans (if_neg isSnapshot))

theorem validateRecord_of_not_inRange {buf : Vector UInt8 tickSize} (corrupt : ¬ InRange buf) :
    ∃ field val, validateRecord buf = .error (badDiscriminant field val) := by
  unfold validateRecord
  dsimp only
  split
  · exact ⟨_, _, rfl⟩
  rename_i exchange
  split
  · exact ⟨_, _, rfl⟩
  rename_i side
  split
  · exact ⟨_, _, rfl⟩
  rename_i isSnapshot
  exact absurd ⟨UInt8.not_lt.mp exchange, UInt8.not_lt.mp side, UInt8.not_lt.mp isSnapshot⟩ corrupt

theorem Exchange.toU8_injective : Function.Injective Exchange.toU8 := by
  intro a b same
  cases a <;> cases b <;> first | rfl | cases same

theorem Side.toU8_injective : Function.Injective Side.toU8 := by
  intro a b same
  cases a <;> cases b <;> first | rfl | cases same

theorem toUInt8_injective : Function.Injective Bool.toUInt8 := by
  intro a b same
  cases a <;> cases b <;> first | rfl | cases same

section RoundTrip

variable {endian : Endian} {tick : NormalizedTick} {buf : Vector UInt8 tickSize}

theorem readUnaligned_asBytes : readUnaligned endian (tick.asBytes endian) = some tick := by
  have exchange : Exchange.ofU8 tick.exchange.toU8 = some tick.exchange :=
    variantOf_discriminant Exchange.toU8_injective (by cases tick.exchange <;> decide)
  have side : Side.ofU8 tick.side.toU8 = some tick.side :=
    variantOf_discriminant Side.toU8_injective (by cases tick.side <;> decide)
  have isSnapshot : boolOfU8 tick.isSnapshot.toUInt8 = some tick.isSnapshot :=
    variantOf_discriminant toUInt8_injective (by cases tick.isSnapshot <;> decide)
  have symbol : (Vector.ofFn fun i : Fin 16 => tick.symbol.bytes.toList.getD i.val 0) =
      tick.symbol.bytes := by
    ext i bound
    simp
  simp only [readUnaligned, NormalizedTick.slice_asBytes, NormalizedTick.fieldBytes,
    List.headD_cons, exchange, side, isSnapshot, symbol, Endian.uint64_ofBytes_toBytes,
    Endian.uint32_ofBytes_toBytes]
  rfl

theorem asBytes_inj {other : NormalizedTick} :
    tick.asBytes endian = other.asBytes endian ↔ tick = other := by
  refine ⟨fun same => ?_, fun same => congrArg _ same⟩
  have read := @readUnaligned_asBytes endian tick
  rw [same, readUnaligned_asBytes] at read
  exact (Option.some.inj read).symm

theorem length_slice (field : TickField) :
    (tickLayout.slice buf.toList field).length = tickLayout.size field :=
  Layout.length_slice tickLayout_packed field.mem_fields Vector.length_toList

theorem singleton_byte {field : TickField} (single : tickLayout.size field = 1) :
    [(tickLayout.slice buf.toList field).headD 0] = tickLayout.slice buf.toList field := by
  obtain ⟨byte, only⟩ := List.length_eq_one_iff.mp ((length_slice field).trans single)
  rw [only, List.headD_cons]

/-- A tick read from a record has that record as its image. -/
theorem asBytes_of_readUnaligned (read : readUnaligned endian buf = some tick) :
    tick.asBytes endian = buf := by
  simp only [readUnaligned, Option.bind_eq_bind, Option.bind_eq_some_iff, Option.pure_def,
    Option.some.injEq] at read
  obtain ⟨exchange, atExchange, side, atSide, isSnapshot, atSnapshot, value⟩ := read
  have same : tick.fieldBytes endian = tickLayout.slice buf.toList := by
    subst value
    funext field
    cases field with
    | price | qty | sequence | tsExchangeNs | tsRecvNs =>
      exact Endian.uint64_toBytes_ofBytes (length_slice _)
    | snapshotId => exact Endian.uint32_toBytes_ofBytes (length_slice _)
    | symbol =>
      refine List.ext_getElem ((Vector.length_toList).trans (length_slice .symbol).symm) ?_
      intro i left right
      simp only [NormalizedTick.fieldBytes, Vector.getElem_toList, Vector.getElem_ofFn,
        List.getD_eq_getElem?_getD, List.getElem?_eq_getElem right, Option.getD_some]
    | exchange =>
      simp only [NormalizedTick.fieldBytes, discriminant_of_variantOf atExchange]
      exact singleton_byte rfl
    | side =>
      simp only [NormalizedTick.fieldBytes, discriminant_of_variantOf atSide]
      exact singleton_byte rfl
    | isSnapshot =>
      simp only [NormalizedTick.fieldBytes, discriminant_of_variantOf atSnapshot]
      exact singleton_byte rfl
    | alignPad => exact singleton_byte rfl
  refine Vector.toList_inj.mp ?_
  have back : tickLayout.image (tickLayout.slice buf.toList) = buf.toList :=
    Layout.image_slice tickLayout_packed tickLayout_nodup Vector.length_toList
  exact (congrArg tickLayout.image same).trans back

theorem get_byte {field : TickField} (single : tickLayout.size field = 1)
    (inside : tickLayout.offsetOf field < tickSize) :
    buf.get ⟨tickLayout.offsetOf field, inside⟩ = (tickLayout.slice buf.toList field).headD 0 := by
  have bound : tickLayout.offsetOf field < buf.toList.length :=
    inside.trans_eq Vector.length_toList.symm
  rw [Layout.slice_byte single bound, List.headD_cons, Vector.getElem_toList]
  rfl

theorem inRange_iff : InRange buf ↔
    (tickLayout.slice buf.toList .exchange).headD 0 ≤ 2 ∧
      (tickLayout.slice buf.toList .side).headD 0 ≤ 1 ∧
      (tickLayout.slice buf.toList .isSnapshot).headD 0 ≤ 1 := by
  rw [← get_byte rfl (by decide), ← get_byte rfl (by decide), ← get_byte rfl (by decide)]
  rfl

theorem inRange_asBytes : InRange (tick.asBytes endian) := by
  simp only [inRange_iff, NormalizedTick.slice_asBytes, NormalizedTick.fieldBytes,
    List.headD_cons]
  refine ⟨?_, ?_, ?_⟩
  · cases tick.exchange <;> decide
  · cases tick.side <;> decide
  · cases tick.isSnapshot <;> decide

theorem exists_readUnaligned (endian : Endian) (valid : InRange buf) :
    ∃ tick, readUnaligned endian buf = some tick := by
  obtain ⟨exchangeBound, sideBound, snapshotBound⟩ := inRange_iff.mp valid
  obtain ⟨exchange, atExchange⟩ : ∃ exchange,
      Exchange.ofU8 ((tickLayout.slice buf.toList .exchange).headD 0) = some exchange :=
    exists_variantOf (n := 2) rfl (UInt8.le_iff_toNat_le.mp exchangeBound)
  obtain ⟨side, atSide⟩ : ∃ side,
      Side.ofU8 ((tickLayout.slice buf.toList .side).headD 0) = some side :=
    exists_variantOf (n := 1) rfl (UInt8.le_iff_toNat_le.mp sideBound)
  obtain ⟨isSnapshot, atSnapshot⟩ : ∃ isSnapshot,
      boolOfU8 ((tickLayout.slice buf.toList .isSnapshot).headD 0) = some isSnapshot :=
    exists_variantOf (n := 1) rfl (UInt8.le_iff_toNat_le.mp snapshotBound)
  simp only [readUnaligned, atExchange, atSide, atSnapshot]
  exact ⟨_, rfl⟩

end RoundTrip

end FeedHandler
