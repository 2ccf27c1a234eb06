import FeedHandler.General.Exposition
import Mathlib.Data.List.Forall2

namespace Exposition

/-- A label value has these characters only escaped. -/
def special (c : Char) : Bool := c == '"' || c == '\\' || c == '\n'

def Plain (value : List Char) : Prop := ∀ c ∈ value, special c = false

instance (value : List Char) : Decidable (Plain value) :=
  List.decidableBAll _ value

def escapeChar (c : Char) : List Char :=
  if c = '\\' then ['\\', '\\']
  else if c = '"' then ['\\', '"']
  else if c = '\n' then ['\\', 'n']
  else [c]

def escape (value : List Char) : List Char := value.flatMap escapeChar

/-- The labels from behind the opening brace, each value passed through `quote`. -/
def renderLabels (quote : List Char → List Char) : List Label → List Char
  | [] => ['}']
  | [label] => label.key.text ++ '=' :: '"' :: (quote label.value ++ ['"', '}'])
  | label :: next :: rest =>
    label.key.text ++ '=' :: '"' :: (quote label.value ++ '"' :: ',' ::
      renderLabels quote (next :: rest))

def renderTimestamp : Option Nat → List Char
  | none => []
  | some timestamp => ' ' :: Nat.toDigits 10 timestamp

def renderPoint (value : Nat) (timestamp : Option Nat) : List Char :=
  ' ' :: (Nat.toDigits 10 value ++ (renderTimestamp timestamp ++ ['\n']))

def Sample.render (quote : List Char → List Char) (sample : Sample) : List Char :=
  sample.name.text ++ '{' :: (renderLabels quote sample.labels ++
    renderPoint sample.value sample.timestamp)

section Tokens

variable {allowed : Char → Bool}

theorem Word.exists_cons (word : Word allowed) :
    ∃ c rest, word.text = c :: rest ∧ allowed c = true := by
  obtain ⟨text, valid⟩ := word
  cases text with
  | nil => cases valid
  | cons c rest =>
    simp only [isWord, List.all_cons, Bool.and_eq_true] at valid
    exact ⟨c, rest, rfl, valid.2.1⟩

theorem Word.all_allowed (word : Word allowed) : ∀ c ∈ word.text, allowed c = true := by
  obtain ⟨text, valid⟩ := word
  cases text with
  | nil => cases valid
  | cons c rest =>
    simp only [isWord, Bool.and_eq_true] at valid
    exact List.all_eq_true.mp valid.2

section Spans

variable {word : List Char} {c : Char}

/-- A run of allowed characters ends before the first other one. -/
theorem takeWhile_stop (all : ∀ d ∈ word, allowed d = true) (stop : allowed c = false)
    (rest : List Char) : (word ++ c :: rest).takeWhile allowed = word := by
  rw [List.takeWhile_append_of_pos all, List.takeWhile_cons_of_neg (by simp [stop]), List.append_nil]

theorem dropWhile_stop (all : ∀ d ∈ word, allowed d = true) (stop : allowed c = false)
    (rest : List Char) : (word ++ c :: rest).dropWhile allowed = c :: rest := by
  rw [List.dropWhile_append_of_pos all, List.dropWhile_cons_of_neg (by simp [stop])]

end Spans

theorem readWord_text (word : Word allowed) {c : Char} (stop : allowed c = false)
    (rest : List Char) : readWord allowed (word.text ++ c :: rest) = some (word, c :: rest) := by
  simp only [readWord, takeWhile_stop word.all_allowed stop, dropWhile_stop word.all_allowed stop,
    word.valid, dif_pos]

theorem isDigit_of_mem {n : Nat} : ∀ d ∈ Nat.toDigits 10 n, d.isDigit = true := fun _ member =>
  Nat.isDigit_of_mem_toDigits (by decide) (by decide) member

theorem readNumber_digits (n : Nat) {c : Char} (stop : c.isDigit = false) (rest : List Char) :
    readNumber (Nat.toDigits 10 n ++ c :: rest) = some (n, c :: rest) := by
  rw [readNumber, takeWhile_stop isDigit_of_mem stop, dropWhile_stop isDigit_of_mem stop,
    if_neg Nat.toDigits_ne_nil, Nat.ofDigitChars_ten_toDigits]

theorem skipBlanks_cons {c : Char} (solid : blank c = false) (rest : List Char) :
    skipBlanks (c :: rest) = c :: rest :=
  List.dropWhile_cons_of_neg (by simp [solid])

theorem expect_cons (c : Char) (rest : List Char) : expect c (c :: rest) = some rest :=
  if_pos rfl

end Tokens

theorem readQuoted_ordinary {c : Char} (ordinary : special c = false) (text : List Char) :
    readQuoted (c :: text) = (readQuoted text).map fun read => (c :: read.1, read.2) := by
  simp only [special, Bool.or_eq_false_iff, beq_eq_false_iff_ne] at ordinary
  obtain ⟨⟨quote, slash⟩, newline⟩ := ordinary
  rw [readQuoted.eq_6 c text quote newline (fun same _ => slash same) fun _ _ same _ => slash same,
    Option.map_eq_bind]
  rfl

theorem readQuoted_escaped (c : Char) (text : List Char) :
    readQuoted ('\\' :: c :: text) =
      (unescape c).bind fun d => (readQuoted text).map fun read => (d :: read.1, read.2) := by
  simp only [Option.map_eq_bind]
  rfl

/-- An escaped character reads as the character. -/
theorem readQuoted_escapeChar (c : Char) (text : List Char) :
    readQuoted (escapeChar c ++ text) =
      (readQuoted text).map fun read => (c :: read.1, read.2) := by
  unfold escapeChar
  split_ifs with slash quote newline
  · subst slash
    exact readQuoted_escaped '\\' text
  · subst quote
    exact readQuoted_escaped '"' text
  · subst newline
    exact readQuoted_escaped 'n' text
  · exact readQuoted_ordinary (by simp [special, slash, quote, newline]) text

/-- An escaped text reads as the text, whatever follows it. -/
theorem readQuoted_escape (value text : List Char) :
    readQuoted (escape value ++ text) =
      (readQuoted text).map fun read => (value ++ read.1, read.2) := by
  induction value with
  | nil => exact Option.map_id'.symm
  | cons c value ih =>
    rw [escape, List.flatMap_cons, List.append_assoc, readQuoted_escapeChar, ← escape, ih,
      Option.map_map]
    rfl

theorem escape_of_plain {value : List Char} (plain : Plain value) : escape value = value := by
  induction value with
  | nil => rfl
  | cons c value ih =>
    have head := plain c List.mem_cons_self
    simp only [special, Bool.or_eq_false_iff, beq_eq_false_iff_ne] at head
    have rest := ih fun d member => plain d (List.mem_cons_of_mem c member)
    rw [escape, List.flatMap_cons, ← escape, rest, escapeChar, if_neg head.1.2, if_neg head.1.1,
      if_neg head.2, List.singleton_append]

theorem readQuoted_plain {value : List Char} (plain : Plain value) (text : List Char) :
    readQuoted (value ++ text) =
      (readQuoted text).map fun read => (value ++ read.1, read.2) := by
  have read := readQuoted_escape value text
  rwa [escape_of_plain plain] at read

theorem readQuoted_closed {value : List Char} (plain : Plain value) (rest : List Char) :
    readQuoted (value ++ '"' :: rest) = some (value, rest) := by
  rw [readQuoted_plain plain, readQuoted, Option.map_some, List.append_nil]

/-- The first special character is a quote or a newline, not a backslash. -/
def Settles (tail : List Char) : Prop :=
  ∃ calm stop rest, tail = calm ++ stop :: rest ∧ Plain calm ∧ (stop = '"' ∨ stop = '\n')

theorem Settles.append {calm tail : List Char} (plain : Plain calm) (settles : Settles tail) :
    Settles (calm ++ tail) := by
  obtain ⟨more, stop, rest, rfl, alsoPlain, stops⟩ := settles
  refine ⟨calm ++ more, stop, rest, (List.append_assoc _ _ _).symm, fun c member => ?_, stops⟩
  exact (List.mem_append.mp member).elim (plain c) (alsoPlain c)

/-- Whatever is read from inside quotes up to the first special character is plain. -/
theorem Settles.plain_of_read {tail out rest : List Char} (settles : Settles tail)
    (read : readQuoted tail = some (out, rest)) : Plain out := by
  obtain ⟨calm, stop, after, rfl, plain, quote | newline⟩ := settles
  · rw [quote, readQuoted_closed plain] at read
    cases read
    exact plain
  · rw [newline, readQuoted_plain plain] at read
    cases read

/-- What reading an unescaped value and its closing quote can give: a plain value
is read as it stands, a quote inside or an escape makes it shorter, and a final
backslash escapes the closing quote. -/
theorem readQuoted_raw {tail : List Char} (settles : Settles tail) :
    ∀ {value out rest : List Char}, readQuoted (value ++ '"' :: tail) = some (out, rest) →
      Plain value ∨ out.length < value.length ∨
        ['\\'] <:+ value ∧ ∃ more, Plain more ∧ '"' :: more <:+ out
  | [], _, _, _ => Or.inl fun _ member => nomatch member
  | c :: value, out, rest, read => by
    rw [List.cons_append] at read
    by_cases ordinary : special c = false
    · rw [readQuoted_ordinary ordinary] at read
      obtain ⟨⟨emitted, after⟩, inner, same⟩ := Option.map_eq_some_iff.mp read
      cases same
      obtain plain | shorter | ⟨slashed, more, plain, ends⟩ := readQuoted_raw settles inner
      · exact Or.inl (List.forall_mem_cons.mpr ⟨ordinary, plain⟩)
      · exact Or.inr (Or.inl (Nat.succ_lt_succ shorter))
      · exact Or.inr (Or.inr ⟨slashed.trans (List.suffix_cons c value), more, plain,
          ends.trans (List.suffix_cons c emitted)⟩)
    · simp only [special, Bool.not_eq_false, Bool.or_eq_true, beq_iff_eq] at ordinary
      obtain (rfl | rfl) | rfl := ordinary
      · cases read
        exact Or.inr (Or.inl (Nat.succ_pos _))
      · cases value with
        | nil =>
          rw [List.nil_append, readQuoted_escaped] at read
          obtain ⟨⟨emitted, after⟩, inner, same⟩ := Option.map_eq_some_iff.mp read
          cases same
          exact Or.inr (Or.inr ⟨List.suffix_rfl, emitted, settles.plain_of_read inner,
            List.suffix_rfl⟩)
        | cons escaped value =>
          rw [List.cons_append, readQuoted_escaped] at read
          obtain ⟨d, known, read⟩ := Option.bind_eq_some_iff.mp read
          obtain ⟨⟨emitted, after⟩, inner, same⟩ := Option.map_eq_some_iff.mp read
          cases same
          obtain plain | shorter | ⟨slashed, more, plain, ends⟩ := readQuoted_raw settles inner
          · rw [readQuoted_closed plain] at inner
            cases inner
            exact Or.inr (Or.inl (Nat.lt_succ_self _))
          · exact Or.inr (Or.inl (Nat.succ_lt_succ (Nat.lt_succ_of_lt shorter)))
          · exact Or.inr (Or.inr ⟨slashed.trans ((List.suffix_cons escaped value).trans
              (List.suffix_cons _ _)), more, plain, ends.trans (List.suffix_cons d emitted)⟩)
      · cases read

/-- An unescaped value that reads back as itself is plain. -/
theorem plain_of_readQuoted {value tail rest : List Char} (settles : Settles tail)
    (read : readQuoted (value ++ '"' :: tail) = some (value, rest)) : Plain value := by
  obtain plain | shorter | ⟨slashed, more, plain, ends⟩ := readQuoted_raw settles read
  · exact plain
  · exact absurd shorter (Nat.lt_irrefl _)
  · obtain ⟨front, rfl⟩ := slashed
    obtain empty | ⟨start, same, -⟩ := List.suffix_concat_iff.mp ends
    · cases empty
    have last : '\\' ∈ '"' :: more := same ▸ List.mem_append_right start List.mem_cons_self
    obtain same | inside := List.mem_cons.mp last
    · cases same
    · exact absurd (plain '\\' inside) (by decide)

theorem special_of_nameChar {c : Char} (letter : nameChar c = true) : special c = false := by
  by_contra odd
  simp only [special, Bool.not_eq_false, Bool.or_eq_true, beq_iff_eq] at odd
  obtain (rfl | rfl) | rfl := odd <;> cases letter

theorem blank_of_nameChar {c : Char} (letter : nameChar c = true) : blank c = false := by
  by_contra odd
  simp only [blank, Bool.not_eq_false, Bool.or_eq_true, beq_iff_eq] at odd
  obtain rfl | rfl := odd <;> cases letter

theorem nameChar_of_labelChar {c : Char} (letter : labelChar c = true) : nameChar c = true := by
  rw [nameChar, letter, Bool.true_or]

theorem nameChar_of_isDigit {c : Char} (digit : c.isDigit = true) : nameChar c = true :=
  nameChar_of_labelChar (by rw [labelChar, Char.isAlphanum, digit, Bool.or_true, Bool.true_or])

section Labels

variable {quote : List Char → List Char} {labels : List Label} {text rest : List Char}

/-- The reader undoes `quote` on this value. -/
def ReadsBack (quote : List Char → List Char) (value : List Char) : Prop :=
  ∀ rest, readQuoted (quote value ++ '"' :: rest) = some (value, rest)

theorem readsBack_id {value : List Char} (plain : Plain value) : ReadsBack id value :=
  readQuoted_closed plain

theorem renderLabels_last (label : Label) (text : List Char) :
    renderLabels quote [label] ++ text =
      label.key.text ++ '=' :: '"' :: (quote label.value ++ '"' :: '}' :: text) := by
  simp only [renderLabels, List.append_assoc, List.cons_append, List.nil_append]

theorem renderLabels_next (label next : Label) (more : List Label) (text : List Char) :
    renderLabels quote (label :: next :: more) ++ text =
      label.key.text ++ '=' :: '"' :: (quote label.value ++ '"' :: ',' ::
        (renderLabels quote (next :: more) ++ text)) := by
  simp only [renderLabels, List.append_assoc, List.cons_append]

theorem plain_key (key : Word labelChar) : Plain key.text := fun c member =>
  special_of_nameChar (nameChar_of_labelChar (key.all_allowed c member))

/-- A key and an opening quote leave the value to be read. -/
theorem readLabel_key (key : Word labelChar) (text : List Char) :
    readLabel (key.text ++ '=' :: '"' :: text) =
      (readQuoted text).map fun read => (⟨key, read.1⟩, read.2) := by
  rw [readLabel, readWord_text key (by decide : labelChar '=' = false), Option.map_eq_bind]
  rfl

theorem readLabels_key (fuel : Nat) (key : Word labelChar) (text : List Char) :
    readLabels (fuel + 1) (key.text ++ '=' :: '"' :: text) =
      (readQuoted text).bind fun read => readSeparator (readLabels fuel) ⟨key, read.1⟩ read.2 := by
  have label := readLabel_key key text
  obtain ⟨c, tail, spelled, letter⟩ := key.exists_cons
  rw [spelled, List.cons_append] at label ⊢
  rw [readLabels, skipBlanks_cons (blank_of_nameChar (nameChar_of_labelChar letter))]
  split
  · rename_i same
    cases same
    cases letter
  · rw [label, Option.bind_eq_bind, Option.bind_map]
    rfl

theorem readLabels_render (reads : ∀ label ∈ labels, ReadsBack quote label.value) {fuel : Nat}
    (enough : labels.length < fuel) :
    readLabels fuel (renderLabels quote labels ++ rest) = some (labels, rest) := by
  obtain ⟨fuel, rfl⟩ := Nat.exists_eq_add_one_of_ne_zero (Nat.ne_zero_of_lt enough)
  induction labels generalizing fuel with
  | nil => rfl
  | cons label more ih =>
    obtain ⟨head, tail⟩ := List.forall_mem_cons.mp reads
    cases more with
    | nil =>
      rw [renderLabels_last, readLabels_key, head]
      rfl
    | cons next more =>
      obtain ⟨fuel, rfl⟩ := Nat.exists_eq_add_one_of_ne_zero
        (Nat.ne_zero_of_lt (Nat.lt_of_succ_lt_succ enough))
      rw [renderLabels_next, readLabels_key, head, Option.bind_some, readSeparator,
        skipBlanks_cons (by decide)]
      simp only [ih tail fuel (Nat.lt_of_succ_lt_succ enough)]
      rfl

theorem settles_key (key : Word labelChar) (text : List Char) :
    Settles (key.text ++ '=' :: '"' :: text) :=
  .append (plain_key key) ⟨['='], '"', text, rfl, by decide, Or.inl rfl⟩

theorem settles_renderLabels (label : Label) (more : List Label) (text : List Char) :
    Settles (renderLabels quote (label :: more) ++ text) := by
  cases more with
  | nil =>
    rw [renderLabels_last]
    exact settles_key label.key _
  | cons next more =>
    rw [renderLabels_next]
    exact settles_key label.key _

theorem readSeparator_head {more : List Char → Option (List Label × List Char)} {label : Label}
    (read : readSeparator more label text = some (labels, rest)) : labels.head? = some label := by
  unfold readSeparator at read
  split at read
  · cases read
    rfl
  · obtain ⟨⟨later, after⟩, _, same⟩ := Option.bind_eq_some_iff.mp read
    cases same
    rfl
  · cases read

/-- The first of some unescaped labels that read back as themselves is plain. -/
theorem plain_of_readLabels_cons {fuel : Nat} {label : Label} (settles : Settles text)
    (read : readLabels (fuel + 1) (label.key.text ++ '=' :: '"' :: (label.value ++ '"' :: text)) =
      some (label :: labels, rest)) :
    Plain label.value ∧ readSeparator (readLabels fuel) label text = some (label :: labels, rest) := by
  rw [readLabels_key] at read
  obtain ⟨⟨value, after⟩, inner, separated⟩ := Option.bind_eq_some_iff.mp read
  have same : label.value = value := congrArg Label.value (Option.some.inj (readSeparator_head separated))
  subst same
  have plain := plain_of_readQuoted settles inner
  rw [readQuoted_closed plain] at inner
  cases inner
  exact ⟨plain, separated⟩

theorem plain_of_readLabels {fuel : Nat} (settles : Settles text)
    (read : readLabels fuel (renderLabels id labels ++ text) = some (labels, rest)) :
    ∀ label ∈ labels, Plain label.value := by
  induction labels generalizing fuel with
  | nil => exact fun _ member => nomatch member
  | cons label more ih =>
    cases fuel with
    | zero => cases read
    | succ fuel =>
      cases more with
      | nil =>
        rw [renderLabels_last] at read
        have brace : Settles ('}' :: text) := .append (by decide : Plain ['}']) settles
        obtain ⟨plain, -⟩ := plain_of_readLabels_cons brace read
        exact List.forall_mem_cons.mpr ⟨plain, fun _ member => nomatch member⟩
      | cons next more =>
        rw [renderLabels_next] at read
        have comma : Settles (',' :: (renderLabels id (next :: more) ++ text)) :=
          .append (by decide : Plain [',']) (settles_renderLabels next more text)
        obtain ⟨plain, separated⟩ := plain_of_readLabels_cons comma read
        obtain ⟨⟨later, after⟩, tail, same⟩ := Option.bind_eq_some_iff.mp separated
        cases same
        exact List.forall_mem_cons.mpr ⟨plain, ih tail⟩

end Labels

section Samples

variable {quote : List Char → List Char} {sample : Sample}

theorem plain_digits (n : Nat) : Plain (Nat.toDigits 10 n) := fun c member =>
  special_of_nameChar (nameChar_of_isDigit (isDigit_of_mem c member))

theorem plain_renderTimestamp (timestamp : Option Nat) : Plain (renderTimestamp timestamp) := by
  cases timestamp with
  | none => exact fun _ member => nomatch member
  | some timestamp => exact List.forall_mem_cons.mpr ⟨by decide, plain_digits timestamp⟩

theorem renderPoint_append (value : Nat) (timestamp : Option Nat) (rest : List Char) :
    renderPoint value timestamp ++ rest =
      ' ' :: (Nat.toDigits 10 value ++ (renderTimestamp timestamp ++ '\n' :: rest)) := by
  simp only [renderPoint, List.append_assoc, List.cons_append, List.nil_append]

theorem settles_renderPoint (value : Nat) (timestamp : Option Nat) (rest : List Char) :
    Settles (renderPoint value timestamp ++ rest) := by
  rw [renderPoint_append]
  have newline : Settles ('\n' :: rest) :=
    ⟨[], '\n', rest, rfl, fun _ member => (nomatch member), Or.inr rfl⟩
  exact .append (by decide : Plain [' '])
    (.append (plain_digits value) (.append (plain_renderTimestamp timestamp) newline))

/-- A number behind one blank. -/
theorem readNumber_blank (n : Nat) {c : Char} (stop : c.isDigit = false) (rest : List Char) :
    readNumber (skipBlanks (' ' :: (Nat.toDigits 10 n ++ c :: rest))) = some (n, c :: rest) := by
  have number := readNumber_digits n stop rest
  cases digits : Nat.toDigits 10 n with
  | nil => exact absurd digits Nat.toDigits_ne_nil
  | cons d more =>
    have digit : d.isDigit = true :=
      isDigit_of_mem d (digits ▸ List.mem_cons_self : d ∈ Nat.toDigits 10 n)
    have solid : blank d = false := blank_of_nameChar (nameChar_of_isDigit digit)
    rw [digits, List.cons_append] at number
    have skipped : skipBlanks (' ' :: (d :: more ++ c :: rest)) = d :: (more ++ c :: rest) :=
      skipBlanks_cons solid _
    rw [skipped, number]

theorem readTimestamp_render (timestamp : Option Nat) (rest : List Char) :
    readTimestamp (renderTimestamp timestamp ++ '\n' :: rest) = (timestamp, '\n' :: rest) := by
  cases timestamp with
  | none => rfl
  | some timestamp =>
    rw [renderTimestamp, List.cons_append, readTimestamp,
      readNumber_blank timestamp (by decide : '\n'.isDigit = false)]

theorem readPoint_render (value : Nat) (timestamp : Option Nat) (rest : List Char) :
    readPoint (renderPoint value timestamp ++ rest) = some ((value, timestamp), rest) := by
  have number : ∃ c more, renderTimestamp timestamp ++ '\n' :: rest = c :: more ∧
      c.isDigit = false := by
    cases timestamp with
    | none => exact ⟨'\n', rest, rfl, by decide⟩
    | some timestamp => exact ⟨' ', _, rfl, by decide⟩
  obtain ⟨c, more, same, stop⟩ := number
  have stamped := readTimestamp_render timestamp rest
  rw [renderPoint_append, readPoint, same, readNumber_blank value stop]
  rw [same] at stamped
  simp only [Option.bind_eq_bind, Option.bind_some, stamped]
  rfl

theorem length_lt_renderLabels (quote : List Char → List Char) (labels : List Label)
    (rest : List Char) : labels.length < (renderLabels quote labels ++ rest).length := by
  induction labels with
  | nil => exact Nat.succ_pos _
  | cons label more ih =>
    cases more with
    | nil => simp only [renderLabels, List.length_append, List.length_cons]; omega
    | cons next more =>
      simp only [renderLabels, List.length_append, List.length_cons] at ih ⊢
      omega

theorem Sample.render_append (sample : Sample) (rest : List Char) :
    sample.render quote ++ rest = sample.name.text ++ '{' :: (renderLabels quote sample.labels ++
      (renderPoint sample.value sample.timestamp ++ rest)) := by
  simp only [render, List.append_assoc, List.cons_append]

theorem readBraces_render {labels : List Label}
    (reads : ∀ label ∈ labels, ReadsBack quote label.value) (text : List Char) :
    readBraces ('{' :: (renderLabels quote labels ++ text)) = some (labels, text) :=
  readLabels_render reads (length_lt_renderLabels quote labels text)

theorem readSample_render (reads : ∀ label ∈ sample.labels, ReadsBack quote label.value)
    (rest : List Char) : readSample (sample.render quote ++ rest) = some (sample, rest) := by
  rw [Sample.render_append, readSample, readWord_text sample.name (by decide : nameChar '{' = false)]
  simp only [Option.bind_eq_bind, Option.bind_some, readBraces_render reads, readPoint_render]
  rfl

/-- An unescaped sample that reads back as itself has plain labels. -/
theorem plain_of_readSample {rest after : List Char}
    (read : readSample (sample.render id ++ rest) = some (sample, after)) :
    ∀ label ∈ sample.labels, Plain label.value := by
  rw [Sample.render_append, readSample, readWord_text sample.name (by decide : nameChar '{' = false)]
    at read
  simp only [Option.bind_eq_bind, Option.bind_some] at read
  obtain ⟨⟨labels, text⟩, braces, read⟩ := Option.bind_eq_some_iff.mp read
  obtain ⟨⟨point, text⟩, _, same⟩ := Option.bind_eq_some_iff.mp read
  have known : labels = sample.labels :=
    congrArg (fun found => found.1.labels) (Option.some.inj same)
  subst known
  exact plain_of_readLabels (settles_renderPoint sample.value sample.timestamp rest) braces

/-- A name at the start of a line starts a sample. -/
theorem readLine_name (name : Word nameChar) (text : List Char) :
    readLine (name.text ++ text) =
      (readSample (name.text ++ text)).map fun read => (some (.sample read.1), read.2) := by
  obtain ⟨c, more, spelled, letter⟩ := name.exists_cons
  rw [spelled, List.cons_append, readLine, skipBlanks_cons (blank_of_nameChar letter)]
  split
  · rename_i same
    cases same
    cases letter
  · rename_i same
    cases same
    cases letter
  · rw [Option.map_eq_bind]
    rfl

end Samples

section Texts

/-- The line is read as `entry`, whatever follows it. -/
def Reads (line : List Char) (entry : Entry) : Prop :=
  line ≠ [] ∧ ∀ rest, readLine (line ++ rest) = some (some entry, rest)

theorem readLines_cons {text rest : List Char} {entry : Entry} (written : text ≠ [])
    (read : readLine text = some (some entry, rest)) (fuel : Nat) :
    readLines (fuel + 1) text = (readLines fuel rest).map fun more => entry :: more := by
  cases text with
  | nil => exact absurd rfl written
  | cons c text =>
    rw [readLines, read, Option.map_eq_bind]
    · rfl
    · exact nofun

theorem readLines_of_reads {lines : List (List Char)} {entries : List Entry}
    (reads : List.Forall₂ Reads lines entries) {fuel : Nat} (enough : lines.length ≤ fuel) :
    readLines fuel lines.flatten = some entries := by
  induction reads generalizing fuel with
  | nil => cases fuel <;> rfl
  | @cons line entry lines entries head _ ih =>
    obtain ⟨fuel, rfl⟩ := Nat.exists_eq_add_one_of_ne_zero (Nat.ne_zero_of_lt enough)
    have written : line ++ lines.flatten ≠ [] := List.append_ne_nil_of_left_ne_nil head.1 _
    rw [List.flatten_cons, readLines_cons written (head.2 _), ih (Nat.le_of_succ_le_succ enough),
      Option.map_some]

/-- Lines that read on their own read together. -/
theorem readText_of_reads {lines : List (List Char)} {entries : List Entry}
    (reads : List.Forall₂ Reads lines entries) : readText lines.flatten = some entries := by
  refine readLines_of_reads reads ?_
  induction reads with
  | nil => exact Nat.zero_le _
  | @cons line entry lines entries head _ ih =>
    have long : 0 < line.length := List.length_pos_of_ne_nil head.1
    rw [List.flatten_cons, List.length_append, List.length_cons]
    omega

theorem reads_render {quote : List Char → List Char} {sample : Sample}
    (reads : ∀ label ∈ sample.labels, ReadsBack quote label.value) :
    Reads (sample.render quote) (.sample sample) := by
  refine ⟨List.append_ne_nil_of_right_ne_nil _ (List.cons_ne_nil _ _), fun rest => ?_⟩
  have read := readSample_render reads rest
  rw [Sample.render_append] at read ⊢
  rw [readLine_name, read, Option.map_some]

theorem readLines_inv {fuel : Nat} {text : List Char} {entries : List Entry} (written : text ≠ [])
    (read : readLines fuel text = some entries) :
    ∃ fewer entry rest more, readLine text = some (entry, rest) ∧
      readLines fewer rest = some more ∧ entries = entry.toList ++ more := by
  cases text with
  | nil => exact absurd rfl written
  | cons c text =>
    cases fuel with
    | zero => cases read
    | succ fuel =>
      rw [readLines] at read
      · obtain ⟨⟨entry, rest⟩, line, read⟩ := Option.bind_eq_some_iff.mp read
        obtain ⟨more, later, same⟩ := Option.bind_eq_some_iff.mp read
        exact ⟨fuel, entry, rest, more, line, later, (Option.some.inj same).symm⟩
      · exact nofun

/-- Whatever follows lines that read on their own is read behind their entries. -/
theorem readLines_append {lines : List (List Char)} {entries found : List Entry} {text : List Char}
    (reads : List.Forall₂ Reads lines entries) {fuel : Nat}
    (read : readLines fuel (lines.flatten ++ text) = some found) :
    ∃ fewer more, readLines fewer text = some more ∧ found = entries ++ more := by
  induction reads generalizing fuel found with
  | nil => exact ⟨fuel, found, read, rfl⟩
  | @cons line entry lines entries head _ ih =>
    rw [List.flatten_cons, List.append_assoc] at read
    obtain ⟨fewer, first, rest, later, here, tail, rfl⟩ :=
      readLines_inv (List.append_ne_nil_of_left_ne_nil head.1 _) read
    rw [head.2] at here
    cases here
    obtain ⟨least, more, last, rfl⟩ := ih tail
    exact ⟨least, more, last, rfl⟩

/-- Unescaped samples that read back as themselves are plain, the first and then
the others behind it. -/
theorem plain_of_readLines {fuel : Nat} {samples : List Sample}
    (read : readLines fuel (samples.map (Sample.render id)).flatten = some (samples.map .sample)) :
    ∀ sample ∈ samples, ∀ label ∈ sample.labels, Plain label.value := by
  induction samples generalizing fuel with
  | nil => exact fun _ member => nomatch member
  | cons sample more ih =>
    have written : sample.render id ≠ [] :=
      List.append_ne_nil_of_right_ne_nil _ (List.cons_ne_nil _ _)
    rw [List.map_cons, List.flatten_cons, List.map_cons] at read
    obtain ⟨fewer, entry, rest, later, line, tail, same⟩ :=
      readLines_inv (List.append_ne_nil_of_left_ne_nil written _) read
    rw [Sample.render_append, readLine_name, ← Sample.render_append] at line
    obtain ⟨⟨found, after⟩, inner, shape⟩ := Option.map_eq_some_iff.mp line
    cases shape
    cases same
    have plain := plain_of_readSample inner
    rw [readSample_render fun label member => readsBack_id (plain label member)] at inner
    cases inner
    exact List.forall_mem_cons.mpr ⟨plain, ih tail⟩

theorem readText_render {samples : List Sample}
    (plain : ∀ sample ∈ samples, ∀ label ∈ sample.labels, Plain label.value) :
    readText (samples.map (Sample.render id)).flatten = some (samples.map .sample) := by
  refine readText_of_reads ?_
  rw [List.forall₂_map_left_iff, List.forall₂_map_right_iff, List.forall₂_same]
  exact fun sample member =>
    reads_render fun label inside => readsBack_id (plain sample member label inside)

/-- A writer that does not escape is read back exactly where every label is plain. -/
theorem readText_raw_iff (samples : List Sample) :
    readText (samples.map (Sample.render id)).flatten = some (samples.map .sample) ↔
      ∀ sample ∈ samples, ∀ label ∈ sample.labels, Plain label.value :=
  ⟨plain_of_readLines, readText_render⟩

def helpLine (name : Word nameChar) (help : List Char) : List Char :=
  '#' :: ' ' :: (helpKeyword ++ ' ' :: (name.text ++ ' ' :: (help ++ ['\n'])))

def typeLine (name : Word nameChar) (kind : Kind) : List Char :=
  '#' :: ' ' :: (typeKeyword ++ ' ' :: (name.text ++ ' ' :: (kind.spelling.toList ++ ['\n'])))

theorem skipLine_append {text : List Char} (calm : '\n' ∉ text) (rest : List Char) :
    skipLine (text ++ '\n' :: rest) = some rest := by
  have ordinary : ∀ c ∈ text, (c != '\n') = true := fun c member =>
    bne_iff_ne.mpr fun same => calm (same ▸ member)
  rw [skipLine, dropWhile_stop ordinary (by decide), expect_cons]

theorem skipBlanks_name (name : Word nameChar) (text : List Char) :
    skipBlanks (' ' :: (name.text ++ text)) = name.text ++ text := by
  obtain ⟨c, more, spelled, letter⟩ := name.exists_cons
  rw [spelled, List.cons_append]
  exact skipBlanks_cons (blank_of_nameChar letter) _

theorem readKind_spelling (kind : Kind) (rest : List Char) :
    readKind (kind.spelling.toList ++ '\n' :: rest) = some (kind, '\n' :: rest) := by
  cases kind <;> rfl

theorem reads_helpLine (name : Word nameChar) {help : List Char} (calm : '\n' ∉ help) :
    Reads (helpLine name help) (.help name) := by
  refine ⟨List.cons_ne_nil _ _, fun rest => ?_⟩
  have line : readLine (helpLine name help ++ rest) =
      readHelp (' ' :: (name.text ++ ' ' :: (help ++ ['\n']) ++ rest)) := rfl
  rw [line, readHelp, List.append_assoc, skipBlanks_name, List.cons_append, List.append_assoc,
    readWord_text name (by decide : nameChar ' ' = false)]
  have blanked : '\n' ∉ ' ' :: help := by simp [calm]
  have skipped := skipLine_append blanked rest
  rw [List.cons_append] at skipped
  simp only [Option.bind_eq_bind, Option.bind_some, List.cons_append, List.nil_append, skipped]
  rfl

theorem reads_typeLine (name : Word nameChar) (kind : Kind) :
    Reads (typeLine name kind) (.type name kind) := by
  refine ⟨List.cons_ne_nil _ _, fun rest => ?_⟩
  have line : readLine (typeLine name kind ++ rest) =
      readType (' ' :: (name.text ++ ' ' :: (kind.spelling.toList ++ ['\n']) ++ rest)) := rfl
  have solid : skipBlanks (' ' :: (kind.spelling.toList ++ '\n' :: rest)) =
      kind.spelling.toList ++ '\n' :: rest := by cases kind <;> rfl
  rw [line, readType, List.append_assoc, skipBlanks_name, List.cons_append, List.append_assoc,
    readWord_text name (by decide : nameChar ' ' = false)]
  simp only [Option.bind_eq_bind, Option.bind_some, List.cons_append, List.nil_append, solid,
    readKind_spelling]
  rfl

end Texts

end Exposition
