import FeedHandler.Metrics

namespace FeedHandler

open Exposition

/-- What a service exports, with the ring as it is at each of the three loads. -/
inductive Exporter (R : RingSize)
  | ofBook (book : OrderBook)
  | ofRing (atDropped atProducer atConsumer : SpscDisruptor R) (ringName : String)

namespace Exporter

variable {R : RingSize}

def write (out : String) : Exporter R → String
  | .ofBook book => book.writeMetrics out
  | .ofRing atDropped atProducer atConsumer ringName =>
    atDropped.writeMetrics atProducer atConsumer out ringName

def samples : Exporter R → List Sample
  | .ofBook book => book.samples
  | .ofRing atDropped atProducer atConsumer ringName =>
    atDropped.samples atProducer atConsumer ringName

/-- The labels of the first sample. The others carry the same. -/
def labels (exporter : Exporter R) : List Label :=
  (exporter.samples.head?.map Sample.labels).getD []

/-- The label whose text comes from outside. -/
def label : Exporter R → List Char
  | .ofBook book => book.symbol.asStr.toList
  | .ofRing _ _ _ ringName => ringName.toList

end Exporter

/-- The header once, then the samples of each exporter behind it. -/
def metricsPage {R : RingSize} (exporters : List (Exporter R)) : String :=
  exporters.foldl Exporter.write (writeMetricsHeader "")

/-- What identifies a time series. -/
def series (sample : Sample) : Word nameChar × List Label := (sample.name, sample.labels)

def headerEntries : List Entry :=
  metrics.flatMap fun metric => [.help metric.word, .type metric.word metric.kind]

variable {R : RingSize}

theorem Exporter.write_toList (exporter : Exporter R) (out : String) :
    (exporter.write out).toList =
      out.toList ++ (exporter.samples.map (Sample.render id)).flatten := by
  cases exporter with
  | ofBook book => exact book.writeMetrics_toList out
  | ofRing atDropped atProducer atConsumer ringName =>
    exact atDropped.writeMetrics_toList atProducer atConsumer out ringName

theorem foldl_write_toList (exporters : List (Exporter R)) (out : String) :
    (exporters.foldl Exporter.write out).toList =
      out.toList ++ ((exporters.flatMap Exporter.samples).map (Sample.render id)).flatten := by
  induction exporters generalizing out with
  | nil => exact (List.append_nil _).symm
  | cons exporter exporters ih =>
    rw [List.foldl_cons, ih, exporter.write_toList, List.flatMap_cons, List.map_append,
      List.flatten_append, List.append_assoc]

theorem reads_header : List.Forall₂ Reads (metrics.flatMap Metric.lines) headerEntries := by
  unfold headerEntries
  induction metrics with
  | nil => exact .nil
  | cons row rows ih => exact List.rel_append row.reads_lines ih

theorem metricsPage_toList (exporters : List (Exporter R)) :
    (metricsPage exporters).toList = (metrics.flatMap Metric.lines).flatten ++
      ((exporters.flatMap Exporter.samples).map (Sample.render id)).flatten := by
  have header : (writeMetricsHeader "").toList = (metrics.flatMap Metric.lines).flatten :=
    foldl_header_toList metrics ""
  rw [metricsPage, foldl_write_toList, header]

theorem Exporter.plain_iff (exporter : Exporter R) :
    (∀ sample ∈ exporter.samples, ∀ label ∈ sample.labels, Plain label.value) ↔
      Plain exporter.label := by
  cases exporter with
  | ofBook book =>
    simp only [samples, label, OrderBook.samples, OrderBook.sample, List.forall_mem_cons,
      List.not_mem_nil, false_imp_iff, implies_true, and_true, and_self, book.exchange.plain_asStr]
  | ofRing atDropped atProducer atConsumer ringName =>
    simp only [samples, label, SpscDisruptor.samples, ringSample, List.forall_mem_cons,
      List.not_mem_nil, false_imp_iff, implies_true, and_true, and_self]

/-- The page reads as the header and then all samples exactly where all labels are plain. -/
theorem readText_page_iff (exporters : List (Exporter R)) :
    readText (metricsPage exporters).toList =
        some (headerEntries ++ (exporters.flatMap Exporter.samples).map .sample) ↔
      ∀ exporter ∈ exporters, Plain exporter.label := by
  have each : (∀ exporter ∈ exporters, Plain exporter.label) ↔
      ∀ sample ∈ exporters.flatMap Exporter.samples, ∀ label ∈ sample.labels,
        Plain label.value := by
    rw [List.forall_mem_flatMap]
    exact forall₂_congr fun exporter _ => exporter.plain_iff.symm
  rw [metricsPage_toList, each]
  constructor
  · intro read
    obtain ⟨fewer, more, tail, same⟩ := readLines_append reads_header read
    rw [← List.append_cancel_left same] at tail
    exact plain_of_readLines tail
  · intro plain
    rw [← List.flatten_append]
    refine readText_of_reads (List.rel_append reads_header ?_)
    rw [List.forall₂_map_left_iff, List.forall₂_map_right_iff, List.forall₂_same]
    exact fun sample member =>
      reads_render fun label inside => readsBack_id (plain sample member label inside)

/-- The metrics that the exporter has a sample of. -/
def Exporter.names : Exporter R → List (Word nameChar)
  | .ofBook _ => (metrics.map Metric.word).take 6
  | .ofRing _ _ _ _ => (metrics.map Metric.word).drop 6

theorem names_nodup : (metrics.map Metric.word).Nodup := by
  decide +kernel

namespace Exporter

variable {exporter other : Exporter R}

theorem series_samples (exporter : Exporter R) :
    exporter.samples.map series = exporter.names.map fun name => (name, exporter.labels) := by
  cases exporter with
  | ofBook book =>
    have carried (name : Word nameChar) (value : Nat) :
        series (book.sample name value) = (name, (ofBook book : Exporter R).labels) := rfl
    simp only [samples, OrderBook.samples, List.map_cons, List.map_nil, carried]
    rfl
  | ofRing atDropped atProducer atConsumer ringName =>
    have carried (name : Word nameChar) (value : Nat) : series (ringSample ringName name value) =
        (name, (ofRing atDropped atProducer atConsumer ringName).labels) := rfl
    simp only [samples, SpscDisruptor.samples, List.map_cons, List.map_nil, carried]
    rfl

theorem names_subset (exporter : Exporter R) : ∀ name ∈ exporter.names,
    name ∈ metrics.map Metric.word := by
  cases exporter with
  | ofBook book => exact fun _ => List.mem_of_mem_take
  | ofRing atDropped atProducer atConsumer ringName => exact fun _ => List.mem_of_mem_drop

theorem sample_declared (exporter : Exporter R) : ∀ sample ∈ exporter.samples,
    sample.name ∈ metrics.map Metric.word := by
  intro sample member
  have inside := List.mem_map_of_mem (f := series) member
  rw [series_samples] at inside
  obtain ⟨name, listed, same⟩ := List.mem_map.mp inside
  have here : name = sample.name := congrArg Prod.fst same
  exact here ▸ exporter.names_subset name listed

theorem series_nodup (exporter : Exporter R) : (exporter.samples.map series).Nodup := by
  rw [series_samples]
  refine List.Nodup.map (fun _ _ same => congrArg Prod.fst same) ?_
  cases exporter with
  | ofBook book => exact names_nodup.sublist (List.take_sublist _ _)
  | ofRing atDropped atProducer atConsumer ringName =>
    exact names_nodup.sublist (List.drop_sublist _ _)

theorem length_labels (exporter : Exporter R) : exporter.labels.length =
    match exporter with
    | .ofBook _ => 2
    | .ofRing _ _ _ _ => 1 := by
  cases exporter <;> rfl

theorem names_eq (same : exporter.labels = other.labels) : exporter.names = other.names := by
  have length := congrArg List.length same
  rw [length_labels, length_labels] at length
  cases exporter with
  | ofBook book =>
    cases other with
    | ofBook book' => rfl
    | ofRing atDropped atProducer atConsumer ringName => cases length
  | ofRing atDropped atProducer atConsumer ringName =>
    cases other with
    | ofBook book => cases length
    | ofRing atDropped' atProducer' atConsumer' ringName' => rfl

theorem names_ne_nil (exporter : Exporter R) : exporter.names ≠ [] := by
  cases exporter <;> exact List.cons_ne_nil _ _

/-- Two exporters write a common series exactly if they write the same labels. -/
theorem disjoint_series_iff : List.Disjoint (exporter.samples.map series)
    (other.samples.map series) ↔ exporter.labels ≠ other.labels := by
  rw [series_samples, series_samples]
  constructor
  · intro apart same
    obtain ⟨name, rest, named⟩ := List.exists_cons_of_ne_nil exporter.names_ne_nil
    have first : name ∈ exporter.names := named ▸ List.mem_cons_self
    refine apart (List.mem_map_of_mem first) ?_
    rw [same, ← names_eq same]
    exact List.mem_map_of_mem first
  · rintro different ⟨name, labels⟩ left right
    obtain ⟨_, _, here⟩ := List.mem_map.mp left
    obtain ⟨_, _, there⟩ := List.mem_map.mp right
    exact different ((congrArg Prod.snd here).trans (congrArg Prod.snd there).symm)

end Exporter

/-- No series stands twice on the page exactly if no two exporters write the same labels. -/
theorem series_nodup_iff (exporters : List (Exporter R)) :
    ((exporters.flatMap Exporter.samples).map series).Nodup ↔
      (exporters.map Exporter.labels).Nodup := by
  have labels : (exporters.map Exporter.labels).Nodup ↔
      exporters.Pairwise fun exporter other => exporter.labels ≠ other.labels := List.pairwise_map
  rw [List.map_flatMap, List.nodup_flatMap, labels]
  constructor
  · rintro ⟨_, apart⟩
    exact apart.imp fun disjoint => Exporter.disjoint_series_iff.mp disjoint
  · intro different
    exact ⟨fun exporter _ => exporter.series_nodup,
      different.imp fun apart => Exporter.disjoint_series_iff.mpr apart⟩

/-- A page of any exporters in any order. It reads as each metric declared once
and every sample of a declared metric exactly where all labels are plain, and a
series stands on it twice exactly where two exporters carry the same labels. -/
theorem metrics_page_reads_iff_labels_plain (exporters : List (Exporter R)) :
    (readText (metricsPage exporters).toList =
        some (headerEntries ++ (exporters.flatMap Exporter.samples).map .sample) ↔
      ∀ exporter ∈ exporters, Plain exporter.label) ∧
    (((exporters.flatMap Exporter.samples).map series).Nodup ↔
      (exporters.map Exporter.labels).Nodup) ∧
    (metrics.map Metric.word).Nodup ∧
    ∀ sample ∈ exporters.flatMap Exporter.samples, sample.name ∈ metrics.map Metric.word := by
  refine ⟨readText_page_iff exporters, series_nodup_iff exporters, names_nodup, ?_⟩
  rw [List.forall_mem_flatMap]
  exact fun exporter _ => exporter.sample_declared

end FeedHandler
