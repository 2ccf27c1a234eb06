import Mathlib.Data.List.Basic
import Mathlib.Logic.Function.Basic

namespace ReprC

/-- A C struct: its fields in declaration order, each with a size and an
alignment, and the alignment of the whole. -/
structure Layout (ι : Type*) where
  fields : List ι
  size : ι → Nat
  align : ι → Nat
  structAlign : Nat

namespace Layout

variable {ι : Type*}

/-- The least multiple of `align` that is at least `n`. -/
def roundUp (n align : Nat) : Nat := (n + align - 1) / align * align

/-- Where a field lands when the first of `fields` may start at `start`. -/
def offsetFrom [DecidableEq ι] (L : Layout ι) (start : Nat) : List ι → ι → Nat
  | [], _ => start
  | g :: rest, f =>
    if f = g then roundUp start (L.align g)
    else L.offsetFrom (roundUp start (L.align g) + L.size g) rest f

def offsetOf [DecidableEq ι] (L : Layout ι) (f : ι) : Nat := L.offsetFrom 0 L.fields f

def endFrom (L : Layout ι) (start : Nat) : List ι → Nat
  | [] => start
  | g :: rest => L.endFrom (roundUp start (L.align g) + L.size g) rest

/-- The sizes of the fields added up. -/
def extent (L : Layout ι) : List ι → Nat
  | [] => 0
  | g :: rest => L.size g + L.extent rest

def sizeOf (L : Layout ι) : Nat := roundUp (L.endFrom 0 L.fields) L.structAlign

/-- Every field starts where the one before it ends. -/
def packedFrom (L : Layout ι) (start : Nat) : List ι → Bool
  | [] => roundUp start L.structAlign = start
  | g :: rest => roundUp start (L.align g) = start ∧ L.packedFrom (start + L.size g) rest

/-- No padding between the fields and none after them. -/
def Packed (L : Layout ι) : Prop := L.packedFrom 0 L.fields = true

/-- The memory image of a struct without padding. -/
def image (L : Layout ι) (bytesOf : ι → List UInt8) : List UInt8 := L.fields.flatMap bytesOf

/-- The bytes of one field. -/
def slice [DecidableEq ι] (L : Layout ι) (bytes : List UInt8) (f : ι) : List UInt8 :=
  (bytes.drop (L.offsetOf f)).take (L.size f)

theorem packedFrom_cons {L : Layout ι} {start : Nat} {g : ι} {rest : List ι}
    (packed : L.packedFrom start (g :: rest) = true) :
    roundUp start (L.align g) = start ∧ L.packedFrom (start + L.size g) rest = true := by
  simpa [packedFrom] using packed

section Packed

variable {L : Layout ι} {fields : List ι} {start : Nat} {f : ι}

theorem endFrom_of_packed (packed : L.packedFrom start fields = true) :
    L.endFrom start fields = start + L.extent fields := by
  induction fields generalizing start with
  | nil => rfl
  | cons g rest ih =>
    obtain ⟨here, later⟩ := packedFrom_cons packed
    rw [endFrom, here, ih later, extent, Nat.add_assoc]

theorem roundUp_end_of_packed (packed : L.packedFrom start fields = true) :
    roundUp (L.endFrom start fields) L.structAlign = L.endFrom start fields := by
  induction fields generalizing start with
  | nil => exact of_decide_eq_true packed
  | cons g rest ih =>
    obtain ⟨here, later⟩ := packedFrom_cons packed
    rw [endFrom, here]
    exact ih later

theorem offsetFrom_ge_of_packed [DecidableEq ι] (packed : L.packedFrom start fields = true) (member : f ∈ fields) :
    start ≤ L.offsetFrom start fields f := by
  induction fields generalizing start with
  | nil => cases member
  | cons g rest ih =>
    obtain ⟨here, later⟩ := packedFrom_cons packed
    rw [offsetFrom, here]
    split
    · exact Nat.le_refl start
    · rename_i other
      have inRest := (List.mem_cons.mp member).resolve_left other
      exact Nat.le_trans (Nat.le_add_right _ _) (ih later inRest)

theorem offsetFrom_add_size_le_of_packed [DecidableEq ι]
    (packed : L.packedFrom start fields = true) (member : f ∈ fields) :
    L.offsetFrom start fields f + L.size f ≤ L.endFrom start fields := by
  induction fields generalizing start with
  | nil => cases member
  | cons g rest ih =>
    obtain ⟨here, later⟩ := packedFrom_cons packed
    rw [offsetFrom, endFrom, here]
    split
    · rename_i same
      subst same
      rw [endFrom_of_packed later]
      exact Nat.le_add_right _ _
    · rename_i other
      exact ih later ((List.mem_cons.mp member).resolve_left other)

theorem slice_image_from [DecidableEq ι] {bytesOf : ι → List UInt8} (sizes : ∀ g, (bytesOf g).length = L.size g)
    (packed : L.packedFrom start fields = true) (member : f ∈ fields) :
    ((fields.flatMap bytesOf).drop (L.offsetFrom start fields f - start)).take (L.size f) =
      bytesOf f := by
  induction fields generalizing start with
  | nil => cases member
  | cons g rest ih =>
    obtain ⟨here, later⟩ := packedFrom_cons packed
    rw [offsetFrom, here, List.flatMap_cons]
    split
    · rename_i same
      subst same
      rw [Nat.sub_self, List.drop_zero, List.take_left' (sizes f)]
    · rename_i other
      have inRest := (List.mem_cons.mp member).resolve_left other
      have beyond := offsetFrom_ge_of_packed later inRest
      have skip : L.offsetFrom (start + L.size g) rest f - start =
          (bytesOf g).length + (L.offsetFrom (start + L.size g) rest f - (start + L.size g)) := by
        rw [sizes]
        omega
      rw [skip, List.drop_length_add_append]
      exact ih later inRest

theorem image_slice_from [DecidableEq ι] {bytes : List UInt8} (distinct : fields.Nodup)
    (packed : L.packedFrom start fields = true) :
    (fields.flatMap fun g => (bytes.drop (L.offsetFrom start fields g)).take (L.size g)) =
      (bytes.drop start).take (L.extent fields) := by
  induction fields generalizing start with
  | nil => rfl
  | cons g rest ih =>
    obtain ⟨here, later⟩ := packedFrom_cons packed
    obtain ⟨fresh, distinct⟩ := List.nodup_cons.mp distinct
    have tail : (rest.flatMap fun h =>
          (bytes.drop (L.offsetFrom start (g :: rest) h)).take (L.size h)) =
        rest.flatMap fun h =>
          (bytes.drop (L.offsetFrom (start + L.size g) rest h)).take (L.size h) := by
      refine List.flatMap_congr fun h inRest => ?_
      have other : h ≠ g := fun same => fresh (same ▸ inRest)
      rw [offsetFrom, if_neg other, here]
    rw [List.flatMap_cons, tail, ih distinct later, offsetFrom, if_pos rfl, here, extent,
      List.take_add, List.drop_drop]

theorem length_flatMap {bytesOf : ι → List UInt8} (sizes : ∀ g, (bytesOf g).length = L.size g) :
    (fields.flatMap bytesOf).length = L.extent fields := by
  induction fields with
  | nil => rfl
  | cons g rest ih => rw [List.flatMap_cons, List.length_append, sizes, ih, extent]

end Packed

variable {L : Layout ι}

theorem length_image {bytesOf : ι → List UInt8} (packed : L.Packed)
    (sizes : ∀ g, (bytesOf g).length = L.size g) : (L.image bytesOf).length = L.sizeOf := by
  rw [sizeOf, roundUp_end_of_packed packed, endFrom_of_packed packed, image, length_flatMap sizes,
    Nat.zero_add]

theorem length_slice [DecidableEq ι] {bytes : List UInt8} {f : ι} (packed : L.Packed)
    (member : f ∈ L.fields) (length : bytes.length = L.sizeOf) :
    (L.slice bytes f).length = L.size f := by
  have inside := offsetFrom_add_size_le_of_packed packed member
  rw [sizeOf, roundUp_end_of_packed packed] at length
  rw [slice, List.length_take, List.length_drop, offsetOf]
  omega

/-- Reading a field of an image gives back what was put there. -/
theorem slice_image [DecidableEq ι] {bytesOf : ι → List UInt8} {f : ι} (packed : L.Packed)
    (sizes : ∀ g, (bytesOf g).length = L.size g) (member : f ∈ L.fields) :
    L.slice (L.image bytesOf) f = bytesOf f :=
  slice_image_from sizes packed member

/-- The fields read from any bytes of the right length put those bytes back. -/
theorem image_slice [DecidableEq ι] {bytes : List UInt8} (packed : L.Packed) (distinct : L.fields.Nodup)
    (length : bytes.length = L.sizeOf) : L.image (L.slice bytes) = bytes := by
  have total : L.extent L.fields = bytes.length := by
    rw [length, sizeOf, roundUp_end_of_packed packed, endFrom_of_packed packed, Nat.zero_add]
  exact (image_slice_from distinct packed).trans (by rw [total, List.drop_zero, List.take_length])

theorem slice_byte [DecidableEq ι] {bytes : List UInt8} {f : ι} (single : L.size f = 1)
    (inside : L.offsetOf f < bytes.length) : L.slice bytes f = [bytes[L.offsetOf f]] := by
  rw [slice, single, List.drop_eq_getElem_cons inside, List.take_succ_cons, List.take_zero]

end Layout

section Variants

variable {α : Type*} {variants : List α} {discriminant : α → UInt8} {val : UInt8} {v : α}

/-- The variant of a fieldless enum that has the given discriminant. -/
def variantOf (variants : List α) (discriminant : α → UInt8) (val : UInt8) : Option α :=
  variants.find? fun v => discriminant v = val

theorem discriminant_of_variantOf (found : variantOf variants discriminant val = some v) :
    discriminant v = val := by
  have passes := List.find?_some found
  exact of_decide_eq_true passes

theorem variantOf_discriminant (distinct : Function.Injective discriminant)
    (member : v ∈ variants) : variantOf variants discriminant (discriminant v) = some v := by
  have here : (variants.find? fun w => discriminant w = discriminant v).isSome :=
    List.find?_isSome.mpr ⟨v, member, decide_eq_true rfl⟩
  obtain ⟨w, found⟩ := Option.isSome_iff_exists.mp here
  have same : w = v := distinct (discriminant_of_variantOf found)
  exact same ▸ found

theorem exists_variantOf {n : Nat}
    (covers : variants.map discriminant = (List.range (n + 1)).map UInt8.ofNat)
    (bound : val.toNat ≤ n) : ∃ v, variantOf variants discriminant val = some v := by
  have listed : val ∈ variants.map discriminant := by
    rw [covers, List.mem_map]
    exact ⟨val.toNat, List.mem_range.mpr (Nat.lt_succ_of_le bound), UInt8.ofNat_toNat⟩
  obtain ⟨v, member, value⟩ := List.mem_map.mp listed
  exact Option.isSome_iff_exists.mp (List.find?_isSome.mpr ⟨v, member, decide_eq_true value⟩)

end Variants

end ReprC
