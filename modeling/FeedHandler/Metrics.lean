import FeedHandler.BookQueries
import FeedHandler.RingBuffer
import FeedHandler.General.ExpositionWriter

namespace FeedHandler

open Exposition

/-- Trailing NULs trimmed, lossy on anything that is not valid UTF-8. -/
def Symbol.asStr (symbol : Symbol) : String :=
  let bytes := symbol.bytes.toList
  let stop := bytes.findIdx (· == 0)
  (String.fromUTF8? ⟨(bytes.take stop).toArray⟩).getD "<invalid-symbol>"

theorem Symbol.fromBytes_toList {b : List UInt8} (short : b.length ≤ 16) :
    (Symbol.fromBytes b).bytes.toList = b ++ List.replicate (16 - b.length) 0 := by
  refine List.ext_getElem (by simp [fromBytes, short]) fun i inside _ => ?_
  simp only [fromBytes, Vector.toList_ofFn, List.getElem_ofFn, List.getD_eq_getElem?_getD]
  by_cases early : i < b.length
  · rw [List.getElem_append_left early, List.getElem?_eq_getElem early, Option.getD_some]
  · rw [List.getElem_append_right (by omega), List.getElem_replicate,
      List.getElem?_eq_none (by omega), Option.getD_none]

/-- Every text of at most sixteen bytes without a NUL labels some symbol. -/
theorem Symbol.asStr_fromBytes {text : String} (short : text.toUTF8.data.size ≤ 16)
    (noNul : ∀ b ∈ text.toUTF8.data.toList, b ≠ 0) :
    (Symbol.fromBytes text.toUTF8.data.toList).asStr = text := by
  have bytes := fromBytes_toList (b := text.toUTF8.data.toList) short
  have padding : ∀ n, (List.replicate n (0 : UInt8)).findIdx (· == 0) = 0 := by
    intro n
    cases n <;> rfl
  have unpadded : ¬ text.toUTF8.data.toList.findIdx (· == 0) < text.toUTF8.data.toList.length := by
    rw [List.findIdx_lt_length]
    rintro ⟨b, member, zero⟩
    exact noNul b member (beq_iff_eq.mp zero)
  have whole : String.fromUTF8? text.toUTF8 = some text := dif_pos text.isValidUTF8
  simp only [asStr, bytes, List.findIdx_append, if_neg unpadded, padding, Nat.zero_add,
    List.take_left', Array.toArray_toList]
  rw [whole]
  rfl

example : (Symbol.fromBytes [0x22]).asStr = "\"" ∧ (Symbol.fromBytes [0xff]).asStr = "<invalid-symbol>" := by
  decide +kernel

def Exchange.asStr : Exchange → String
  | .binance => "binance"
  | .bybit => "bybit"
  | .hyperliquid => "hyperliquid"

/-- A row of the table in `write_metrics_header`. -/
structure Metric where
  name : String
  kind : Kind
  help : String
  named : isWord nameChar name.toList = true := by decide +kernel
  oneLine : '\n' ∉ help.toList := by decide +kernel

def metrics : List Metric := [
  { name := "feedhandler_symbol_mismatches_total", kind := .counter,
    help := "Ticks discarded for carrying the wrong Symbol" },
  { name := "feedhandler_sequence_gaps_total", kind := .counter,
    help := "Sequence numbers that jumped by more than one" },
  { name := "feedhandler_sequence_reorders_total", kind := .counter,
    help := "Sequence numbers that went backward or repeated" },
  { name := "feedhandler_checksum_failures_total", kind := .counter,
    help := "Adapter-reported checksum mismatches" },
  { name := "feedhandler_book_last_update_ns", kind := .gauge,
    help := "ts_recv_ns of the last tick actually applied" },
  { name := "feedhandler_book_crossed", kind := .gauge,
    help := "1 if best bid trades through best ask, else 0" },
  { name := "feedhandler_ring_dropped_total", kind := .counter,
    help := "Ticks lost because the ring was full on publish" },
  { name := "feedhandler_ring_pending", kind := .gauge,
    help := "Approximate ticks currently queued in the ring" }]

def Metric.header (metric : Metric) : String :=
  "# HELP " ++ metric.name ++ " " ++ metric.help ++ ".\n" ++
    ("# TYPE " ++ metric.name ++ " " ++ metric.kind.spelling ++ "\n")

def writeMetricsHeader (out : String) : String :=
  metrics.foldl (fun out metric => out ++ metric.header) out

/-- One line of `OrderBook::write_metrics`. -/
def bookLine (name sym ex : String) (value : Nat) : String :=
  name ++ "\x7bsymbol=\"" ++ sym ++ "\",exchange=\"" ++ ex ++ "\"\x7d " ++ toString value ++ "\n"

def OrderBook.writeMetrics (book : OrderBook) (out : String) : String :=
  let sym := book.symbol.asStr
  let ex := book.exchange.asStr
  out ++ bookLine "feedhandler_symbol_mismatches_total" sym ex book.symbolMismatches.toNat
    ++ bookLine "feedhandler_sequence_gaps_total" sym ex book.sequenceGaps.toNat
    ++ bookLine "feedhandler_sequence_reorders_total" sym ex book.sequenceReorders.toNat
    ++ bookLine "feedhandler_checksum_failures_total" sym ex book.checksumFailures.toNat
    ++ bookLine "feedhandler_book_last_update_ns" sym ex book.lastUpdateNs.toNat
    ++ bookLine "feedhandler_book_crossed" sym ex book.isCrossed.toNat

/-- One line of `SpscDisruptor::write_metrics`. -/
def ringLine (name ringName : String) (value : Nat) : String :=
  name ++ "\x7bring=\"" ++ ringName ++ "\"\x7d " ++ toString value ++ "\n"

namespace SpscDisruptor

variable {R : RingSize}

def droppedCount (ring : SpscDisruptor R) : UInt64 := ring.dropped

/-- The two loads, each of the ring as the other threads have left it by then. -/
def pending (atProducer atConsumer : SpscDisruptor R) : UInt64 :=
  atProducer.producer - atConsumer.consumer

/-- The ring at the load of `dropped_count` and at the two loads of `pending`. -/
def writeMetrics (atDropped atProducer atConsumer : SpscDisruptor R) (out ringName : String) :
    String :=
  out ++ ringLine "feedhandler_ring_dropped_total" ringName atDropped.droppedCount.toNat
    ++ ringLine "feedhandler_ring_pending" ringName (pending atProducer atConsumer).toNat

end SpscDisruptor

def Metric.word (metric : Metric) : Word nameChar := ⟨metric.name.toList, metric.named⟩

/-- Reading the header finds both lines of the metric. -/
def Declared (name : Word nameChar) : Prop :=
  ∃ entries, readText (writeMetricsHeader "").toList = some entries ∧
    .help name ∈ entries ∧ ∃ kind, .type name kind ∈ entries

/-- The text appended to `out` reads as exactly these samples, all of declared metrics. -/
def Exposes (out written : String) (samples : List Sample) : Prop :=
  ∃ appended, written = out ++ appended ∧
    readText appended.toList = some (samples.map .sample) ∧
    ∀ sample ∈ samples, Declared sample.name

def OrderBook.sample (book : OrderBook) (name : Word nameChar) (value : Nat) : Sample where
  name := name
  labels := [⟨.ofString "symbol", book.symbol.asStr.toList⟩,
    ⟨.ofString "exchange", book.exchange.asStr.toList⟩]
  value := value
  timestamp := none

/-- What the metrics of a book should say. -/
def OrderBook.samples (book : OrderBook) : List Sample := [
  book.sample (.ofString "feedhandler_symbol_mismatches_total") book.symbolMismatches.toNat,
  book.sample (.ofString "feedhandler_sequence_gaps_total") book.sequenceGaps.toNat,
  book.sample (.ofString "feedhandler_sequence_reorders_total") book.sequenceReorders.toNat,
  book.sample (.ofString "feedhandler_checksum_failures_total") book.checksumFailures.toNat,
  book.sample (.ofString "feedhandler_book_last_update_ns") book.lastUpdateNs.toNat,
  book.sample (.ofString "feedhandler_book_crossed") book.isCrossed.toNat]

def ringSample (ringName : String) (name : Word nameChar) (value : Nat) : Sample where
  name := name
  labels := [⟨.ofString "ring", ringName.toList⟩]
  value := value
  timestamp := none

/-- What the metrics of a ring should say. -/
def SpscDisruptor.samples {R : RingSize} (atDropped atProducer atConsumer : SpscDisruptor R)
    (ringName : String) : List Sample := [
  ringSample ringName (.ofString "feedhandler_ring_dropped_total") atDropped.droppedCount.toNat,
  ringSample ringName (.ofString "feedhandler_ring_pending") (pending atProducer atConsumer).toNat]

/-- The two lines of the header for one metric. -/
def Metric.lines (metric : Metric) : List (List Char) :=
  [helpLine metric.word (metric.help ++ ".").toList, typeLine metric.word metric.kind]

theorem Metric.header_toList (metric : Metric) : metric.header.toList = metric.lines.flatten := by
  simp only [header, lines, helpLine, typeLine, word, helpKeyword, typeKeyword,
    String.toList_append]
  simp

theorem foldl_header_toList (rows : List Metric) (out : String) :
    (rows.foldl (fun out metric => out ++ metric.header) out).toList =
      out.toList ++ (rows.flatMap Metric.lines).flatten := by
  induction rows generalizing out with
  | nil => exact (List.append_nil _).symm
  | cons row rows ih =>
    rw [List.foldl_cons, ih, String.toList_append, row.header_toList, List.flatMap_cons,
      List.flatten_append, List.append_assoc]

theorem Metric.reads_lines (metric : Metric) :
    List.Forall₂ Reads metric.lines [.help metric.word, .type metric.word metric.kind] := by
  have oneLine : '\n' ∉ (metric.help ++ ".").toList := by
    rw [String.toList_append]
    exact fun member => (List.mem_append.mp member).elim metric.oneLine (by decide)
  exact .cons (reads_helpLine metric.word oneLine)
    (.cons (reads_typeLine metric.word metric.kind) .nil)

/-- The header reads as one `HELP` and one `TYPE` line for each row of its table. -/
theorem readText_header :
    readText (writeMetricsHeader "").toList =
      some (metrics.flatMap fun metric => [.help metric.word, .type metric.word metric.kind]) := by
  have text : (writeMetricsHeader "").toList = (metrics.flatMap Metric.lines).flatten :=
    foldl_header_toList metrics ""
  rw [text]
  refine readText_of_reads ?_
  induction metrics with
  | nil => exact .nil
  | cons row rows ih => exact List.rel_append row.reads_lines ih

theorem declared_of_mem {name : Word nameChar} (member : name ∈ metrics.map Metric.word) :
    Declared name := by
  obtain ⟨metric, inside, rfl⟩ := List.mem_map.mp member
  exact ⟨_, readText_header, List.mem_flatMap.mpr ⟨metric, inside, List.mem_cons_self⟩, metric.kind,
    List.mem_flatMap.mpr ⟨metric, inside, List.mem_cons_of_mem _ List.mem_cons_self⟩⟩

/-- A writer that pastes its labels in exposes its samples exactly where they are plain. -/
theorem exposes_iff {out written : String} {samples : List Sample}
    (lines : written.toList = out.toList ++ (samples.map (Sample.render id)).flatten)
    (declared : ∀ sample ∈ samples, sample.name ∈ metrics.map Metric.word) :
    Exposes out written samples ↔ ∀ sample ∈ samples, ∀ label ∈ sample.labels, Plain label.value := by
  rw [← readText_raw_iff]
  constructor
  · rintro ⟨appended, rfl, read, -⟩
    rw [String.toList_append] at lines
    rwa [List.append_cancel_left lines] at read
  · intro read
    refine ⟨.ofList (samples.map (Sample.render id)).flatten, ?_, ?_,
      fun sample member => declared_of_mem (declared sample member)⟩
    · rw [← String.toList_inj, lines, String.toList_append, String.toList_ofList]
    · rwa [String.toList_ofList]

theorem bookLine_toList (book : OrderBook) (name : String)
    (named : isWord nameChar name.toList = true) (value : Nat) :
    (bookLine name book.symbol.asStr book.exchange.asStr value).toList =
      (book.sample (.ofString name named) value).render id := by
  simp only [bookLine, OrderBook.sample, Sample.render, renderLabels, renderPoint, renderTimestamp,
    Word.ofString, String.toList_append]
  simp

theorem ringLine_toList (ringName name : String) (named : isWord nameChar name.toList = true)
    (value : Nat) :
    (ringLine name ringName value).toList =
      (ringSample ringName (.ofString name named) value).render id := by
  simp only [ringLine, ringSample, Sample.render, renderLabels, renderPoint, renderTimestamp,
    Word.ofString, String.toList_append]
  simp

theorem Exchange.plain_asStr (exchange : Exchange) : Plain exchange.asStr.toList := by
  cases exchange <;> decide +kernel

theorem OrderBook.writeMetrics_toList (book : OrderBook) (out : String) :
    (book.writeMetrics out).toList =
      out.toList ++ (book.samples.map (Sample.render id)).flatten := by
  simp only [samples, List.map_cons, List.map_nil, ← bookLine_toList]
  simp only [writeMetrics, String.toList_append, List.flatten_cons, List.flatten_nil,
    List.append_assoc, List.append_nil]

theorem SpscDisruptor.writeMetrics_toList {R : RingSize}
    (atDropped atProducer atConsumer : SpscDisruptor R) (out ringName : String) :
    (atDropped.writeMetrics atProducer atConsumer out ringName).toList =
      out.toList ++
        ((atDropped.samples atProducer atConsumer ringName).map (Sample.render id)).flatten := by
  simp only [samples, List.map_cons, List.map_nil, ← ringLine_toList]
  simp only [writeMetrics, String.toList_append, List.flatten_cons, List.flatten_nil,
    List.append_assoc, List.append_nil]

theorem OrderBook.names_listed (book : OrderBook) :
    ∀ sample ∈ book.samples, sample.name ∈ metrics.map Metric.word := by
  have names : book.samples.map Sample.name = (metrics.map Metric.word).take 6 := rfl
  intro sample member
  exact List.mem_of_mem_take (names ▸ List.mem_map_of_mem member)

theorem SpscDisruptor.names_listed {R : RingSize} (atDropped atProducer atConsumer : SpscDisruptor R)
    (ringName : String) : ∀ sample ∈ atDropped.samples atProducer atConsumer ringName,
      sample.name ∈ metrics.map Metric.word := by
  have names : (atDropped.samples atProducer atConsumer ringName).map Sample.name =
      (metrics.map Metric.word).drop 6 := rfl
  intro sample member
  exact List.mem_of_mem_drop (names ▸ List.mem_map_of_mem member)

theorem OrderBook.exposes_iff_plain (book : OrderBook) (out : String) :
    Exposes out (book.writeMetrics out) book.samples ↔ Plain book.symbol.asStr.toList := by
  rw [exposes_iff (book.writeMetrics_toList out) book.names_listed]
  simp only [samples, sample, List.forall_mem_cons, List.not_mem_nil, false_imp_iff, implies_true,
    and_true, and_self, book.exchange.plain_asStr]

theorem SpscDisruptor.exposes_iff_plain {R : RingSize}
    (atDropped atProducer atConsumer : SpscDisruptor R) (out ringName : String) :
    Exposes out (atDropped.writeMetrics atProducer atConsumer out ringName)
      (atDropped.samples atProducer atConsumer ringName) ↔ Plain ringName.toList := by
  rw [exposes_iff (atDropped.writeMetrics_toList atProducer atConsumer out ringName)
    (atDropped.names_listed atProducer atConsumer ringName)]
  simp only [samples, ringSample, List.forall_mem_cons, List.not_mem_nil, false_imp_iff,
    implies_true, and_true, and_self]

/-- The metrics of a book are well formed exactly where its symbol holds no quote,
backslash or newline, those of a ring exactly where its name holds none. -/
theorem metrics_well_formed_iff_labels_plain {R : RingSize} (book : OrderBook)
    (atDropped atProducer atConsumer : SpscDisruptor R) (out ringName : String) :
    (Exposes out (book.writeMetrics out) book.samples ↔ Plain book.symbol.asStr.toList) ∧
      (Exposes out (atDropped.writeMetrics atProducer atConsumer out ringName)
        (atDropped.samples atProducer atConsumer ringName) ↔ Plain ringName.toList) :=
  ⟨book.exposes_iff_plain out,
    atDropped.exposes_iff_plain atProducer atConsumer out ringName⟩

example : (readText ((SpscDisruptor.new .standard).writeMetrics (.new .standard) (.new .standard) ""
    "x\"\x7d 0\nforged\x7bring=\"y").toList).map List.length = some 4 := by
  decide +kernel

/-- A fresh book whose symbol is one double quote, a fresh ring named so. -/
theorem one_quote_breaks_the_metrics :
    ¬ Exposes "" ((OrderBook.new (.fromBytes [0x22]) .binance).writeMetrics "")
        (OrderBook.new (.fromBytes [0x22]) .binance).samples ∧
      ¬ Exposes ""
        ((SpscDisruptor.new .standard).writeMetrics (.new .standard) (.new .standard) "" "\"")
        ((SpscDisruptor.new .standard).samples (.new .standard) (.new .standard) "\"") := by
  rw [OrderBook.exposes_iff_plain, SpscDisruptor.exposes_iff_plain]
  decide +kernel

end FeedHandler
