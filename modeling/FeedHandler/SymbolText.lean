import FeedHandler.Metrics

namespace FeedHandler

/-- The bytes that `as_bytes` of a string gives. -/
def utf8 (text : String) : List UInt8 := text.toUTF8.data.toList

namespace Symbol

variable {symbol other : Symbol} {text : String}

/-- The bytes before the first NUL. -/
def name (symbol : Symbol) : List UInt8 :=
  symbol.bytes.toList.take (symbol.bytes.toList.findIdx (· == 0))

/-- The name is a text. -/
def Legible (symbol : Symbol) : Prop := ByteArray.IsValidUTF8 ⟨symbol.name.toArray⟩

/-- Nothing but NULs follows the name. -/
def Padded (symbol : Symbol) : Prop :=
  symbol.bytes.toList = symbol.name ++ List.replicate (16 - symbol.name.length) 0

def placeholder : String := "<invalid-symbol>"

theorem length_name (symbol : Symbol) : symbol.name.length ≤ 16 := by
  rw [name, List.length_take, Vector.length_toList]
  exact Nat.min_le_right _ _

theorem name_noNul (symbol : Symbol) : ∀ b ∈ symbol.name, b ≠ 0 := by
  intro b member zero
  obtain ⟨i, bound, value⟩ := List.getElem_of_mem member
  rw [name, List.length_take] at bound
  have before := List.not_of_lt_findIdx (Nat.lt_of_lt_of_le bound (Nat.min_le_left _ _))
  simp only [name, List.getElem_take] at value
  rw [value, zero] at before
  cases before

theorem asStr_legible (legible : symbol.Legible) :
    symbol.asStr = .fromUTF8 ⟨symbol.name.toArray⟩ legible := by
  have read : String.fromUTF8? ⟨symbol.name.toArray⟩ =
      some (.fromUTF8 ⟨symbol.name.toArray⟩ legible) := dif_pos legible
  exact congrArg (Option.getD · placeholder) read

theorem asStr_illegible (illegible : ¬ symbol.Legible) : symbol.asStr = placeholder := by
  have read : String.fromUTF8? ⟨symbol.name.toArray⟩ = none := dif_neg illegible
  exact congrArg (Option.getD · placeholder) read

theorem utf8_asStr (legible : symbol.Legible) : utf8 symbol.asStr = symbol.name := by
  rw [asStr_legible legible]
  rfl

/-- Sixteen bytes, as many as a symbol has. -/
theorem utf8_placeholder : (utf8 placeholder).length = 16 ∧ ∀ b ∈ utf8 placeholder, b ≠ 0 := by
  decide +kernel

/-- Whatever the bytes, the label is one that some symbol can hold. -/
theorem utf8_asStr_fits (symbol : Symbol) :
    (utf8 symbol.asStr).length ≤ 16 ∧ ∀ b ∈ utf8 symbol.asStr, b ≠ 0 := by
  by_cases legible : symbol.Legible
  · rw [utf8_asStr legible]
    exact ⟨symbol.length_name, symbol.name_noNul⟩
  · rw [asStr_illegible legible]
    exact ⟨utf8_placeholder.1.le, utf8_placeholder.2⟩

theorem asStr_fromBytes_iff :
    (fromBytes (utf8 text)).asStr = text ↔ (utf8 text).length ≤ 16 ∧ ∀ b ∈ utf8 text, b ≠ 0 := by
  constructor
  · intro same
    rw [← same]
    exact utf8_asStr_fits _
  · exact fun ⟨short, noNul⟩ => asStr_fromBytes short noNul

theorem findIdx_noNul {b : List UInt8} (noNul : ∀ c ∈ b, c ≠ 0) (padding : Nat) :
    (b ++ List.replicate padding 0).findIdx (· == 0) = b.length := by
  have none : ¬ b.findIdx (· == 0) < b.length := by
    rw [List.findIdx_lt_length]
    rintro ⟨c, member, zero⟩
    exact noNul c member (beq_iff_eq.mp zero)
  have first : (List.replicate padding (0 : UInt8)).findIdx (· == 0) = 0 := by
    cases padding <;> rfl
  rw [List.findIdx_append, if_neg none, first, Nat.zero_add]

theorem name_fromBytes {b : List UInt8} (short : b.length ≤ 16) (noNul : ∀ c ∈ b, c ≠ 0) :
    (fromBytes b).name = b := by
  rw [name, fromBytes_toList short, findIdx_noNul noNul, List.take_left]

theorem fromBytes_name (padded : symbol.Padded) : fromBytes symbol.name = symbol := by
  have bytes := (fromBytes_toList symbol.length_name).trans padded.symm
  cases symbol
  exact congrArg mk (Vector.toList_inj.mp bytes)

/-- Going through the label gives back a symbol exactly where its name is a text
and NULs follow it. -/
theorem fromBytes_asStr_iff :
    fromBytes (utf8 symbol.asStr) = symbol ↔ symbol.Legible ∧ symbol.Padded := by
  constructor
  · intro same
    obtain ⟨short, noNul⟩ := symbol.utf8_asStr_fits
    have name := name_fromBytes short noNul
    have bytes := fromBytes_toList short
    rw [same] at name bytes
    refine ⟨?_, ?_⟩
    · rw [Legible, name]
      exact symbol.asStr.isValidUTF8
    · rw [Padded, bytes, name]
  · rintro ⟨legible, padded⟩
    rw [utf8_asStr legible]
    exact fromBytes_name padded

/-- The label of a symbol is that of another: the same name, or the placeholder twice. -/
theorem asStr_eq_iff (symbol other : Symbol) : symbol.asStr = other.asStr ↔
    symbol.name = other.name ∨
      symbol.asStr = placeholder ∧ other.asStr = placeholder := by
  constructor
  · intro same
    by_cases legible : symbol.Legible
    · by_cases legible' : other.Legible
      · exact .inl (by rw [← utf8_asStr legible, same, utf8_asStr legible'])
      · exact .inr ⟨same.trans (asStr_illegible legible'), asStr_illegible legible'⟩
    · exact .inr ⟨asStr_illegible legible, same.symm.trans (asStr_illegible legible)⟩
  · rintro (same | ⟨left, right⟩)
    · exact congrArg (fun name : List UInt8 =>
        (String.fromUTF8? ⟨name.toArray⟩).getD placeholder) same
    · exact left.trans right.symm

end Symbol

/-- What survives the way between texts and symbols. A text survives exactly if
it has at most sixteen bytes and no NUL, a symbol exactly if it is such a text
padded with NULs, a label always does, and what two symbols share with their
label is the name or the placeholder. -/
theorem labels_round_trip :
    (∀ text : String, (Symbol.fromBytes (utf8 text)).asStr = text ↔
      (utf8 text).length ≤ 16 ∧ ∀ b ∈ utf8 text, b ≠ 0) ∧
    (∀ symbol : Symbol, Symbol.fromBytes (utf8 symbol.asStr) = symbol ↔
      symbol.Legible ∧ symbol.Padded) ∧
    (∀ symbol : Symbol, (Symbol.fromBytes (utf8 symbol.asStr)).asStr = symbol.asStr) ∧
    ∀ symbol other : Symbol, symbol.asStr = other.asStr ↔ symbol.name = other.name ∨
      symbol.asStr = Symbol.placeholder ∧ other.asStr = Symbol.placeholder :=
  ⟨fun _ => Symbol.asStr_fromBytes_iff, fun _ => Symbol.fromBytes_asStr_iff,
    fun symbol => Symbol.asStr_fromBytes_iff.mpr symbol.utf8_asStr_fits, Symbol.asStr_eq_iff⟩

end FeedHandler
