import Mathlib.Data.List.Forall2
import TestSelection.Diagnostic.Stored
import TestSelection.Proofs.Json

/-!
The log of diagnostics. Whatever the texts in a diagnostic are, it is written on one line and the
line is read back as the diagnostic; a report adds one line to the log, whether or not the flush
behind it fails.
-/

namespace TestSelection

namespace Diagnostic

theorem jsonFields_ne_nil (d : Diagnostic) : d.jsonFields ≠ [] := List.cons_ne_nil _ _

theorem toList_json (d : Diagnostic) : d.json.toList = '\x7b' :: Json.objectChars d.jsonFields := by
  have hopen : "\x7b".toList = ['\x7b'] := by decide
  have hclose : "\x7d".toList = ['\x7d'] := by decide
  have hcomma : ",".toList = [','] := by decide
  rw [json, String.toList_append, String.toList_append, String.toList_intercalate, List.map_map,
    hopen, hclose, hcomma]
  rfl

theorem parse?_json (d : Diagnostic) :
    Json.parse? d.json = some (.table (d.jsonFields.map fun m => (m.1, .text m.2))) :=
  Json.parse?_object d.jsonFields_ne_nil d.toList_json

theorem newline_notMem_json (d : Diagnostic) : '\n' ∉ d.json.toList := by
  rw [toList_json]
  exact fun h => (List.mem_cons.mp h).elim (by decide) Json.newline_notMem_objectChars

/-- The value has a text for each field of a diagnostic that is set, and stands for it. -/
structure IsStoredAs (d : Diagnostic) (v : ConfigValue) : Prop where
  kind : v.field? "kind" = some (.text d.kind.label)
  path : v.field? "path" = d.path.map fun p => .text p.text
  url : v.field? "url" = d.url.map .text
  message : v.field? "message" = some (.text d.message)
  decoded : ofValue? v = some d

theorem isStoredAs_jsonFields (d : Diagnostic) :
    d.IsStoredAs (.table (d.jsonFields.map fun m => (m.1, .text m.2))) := by
  obtain ⟨kind, path, url, message⟩ := d
  constructor
  · rfl
  · cases path <;> cases url <;> rfl
  · cases path <;> cases url <;> rfl
  · cases path <;> cases url <;> rfl
  · cases kind <;> cases path <;> cases url <;> rfl

end Diagnostic

/-! ### The log -/

namespace Log

/-- A report adds a line and a flush, and the flush may be one more failure. -/
theorem report_eq (l : Log) (d : Diagnostic) :
    l.report d = { l with
      text := l.text ++ (d.json ++ "\n")
      flushes := l.flushes + 1
      failures := l.failures + if (l.flush l.flushes).isSome then 1 else 0 } := by
  rw [← String.append_assoc, report, write]
  cases l.flush l.flushes <;> simp

/-- Reports add their lines one behind the other, and of the flushes those that fail are counted. -/
theorem foldl_report (l : Log) (ds : List Diagnostic) :
    ds.foldl report l = { l with
      text := l.text ++ String.join (ds.map fun d => d.json ++ "\n")
      flushes := l.flushes + ds.length
      failures := l.failures
        + (List.range' l.flushes ds.length).countP fun n => (l.flush n).isSome } := by
  induction ds generalizing l with
  | nil => simp
  | cons d ds ih =>
      rw [List.foldl_cons, ih, report_eq, List.map_cons, String.join_cons, List.length_cons,
        List.range'_succ, List.countP_cons]
      simp only [Log.mk.injEq, true_and]
      exact ⟨by omega, String.append_assoc .., by omega⟩

/-- Whichever flushes fail, each diagnostic reported is on a line of its own, in order, from which
it is read back, and every report whose flush failed is counted. -/
theorem foldl_report_start (flush : Nat → Option String) (ds : List Diagnostic) :
    let log := ds.foldl report (start flush)
    (∃ records : List String,
      log.text = String.join (records.map (· ++ "\n")) ∧
      (∀ record ∈ records, '\n' ∉ record.toList) ∧
      List.Forall₂ (fun record d => ∃ v, Json.parse? record = some v ∧ d.IsStoredAs v)
        records ds) ∧
      log.failures = (List.range ds.length).countP fun n => (flush n).isSome := by
  intro log
  have hlog : log = _ := foldl_report (start flush) ds
  rw [hlog]
  refine ⟨⟨ds.map Diagnostic.json, ?_, ?_, ?_⟩, ?_⟩
  · rw [List.map_map]
    exact String.empty_append
  · intro record hrecord
    obtain ⟨d, -, rfl⟩ := List.mem_map.mp hrecord
    exact d.newline_notMem_json
  · rw [List.forall₂_map_left_iff, List.forall₂_same]
    exact fun d _ => ⟨_, d.parse?_json, d.isStoredAs_jsonFields⟩
  · rw [List.range_eq_range']
    exact Nat.zero_add _

end Log

end TestSelection
