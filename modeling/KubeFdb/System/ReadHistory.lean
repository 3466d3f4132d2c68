import KubeFdb.Properties.LiveKeys
import KubeFdb.System.Store

/-!
# 履歴の読み出し

書き込みだけで到達した store では、上限なしの `List` は、revision `R` の時点で生きている鍵を鍵の順に一度
ずつ返し、`Count` はその数を返す。どこで batch に分かれても答えは同じである。
-/

namespace KubeFdb

open Tuple

variable {R : Int} {hist : List RevRecord} {r : RevRecord}

/-- revision `R` までの履歴。0 は履歴全体を指す。 -/
def historyAt (R : Int) (hist : List RevRecord) : List RevRecord :=
  hist.filter (fun r => decide (R = 0 ∨ r.revision ≤ R))

theorem mem_historyAt : r ∈ historyAt R hist ↔ r ∈ hist ∧ pinWindow R r.rev = true := by
  unfold historyAt pinWindow
  rw [List.mem_filter]

/-- 見える record は、`R` までの履歴で鍵の最新の、生きた record である。 -/
theorem liveAt_iff_newest (h : SortedBy RevRecord.rev hist) :
    LiveAt R hist r ↔
      newest RevRecord.key (historyAt R hist) r.key = some r ∧ r.record.isDelete = false := by
  have hlive : r.live = true ↔ r.record.isDelete = false := by simp [RevRecord.live]
  have hs : SortedBy RevRecord.rev (historyAt R hist) := h.filter _
  rw [newest_eq_some_iff hs, ← hlive]
  constructor
  · rintro ⟨hm, hw, hl, hmax⟩
    refine ⟨⟨mem_historyAt.mpr ⟨hm, hw⟩, rfl, fun r' hr' hk => ?_⟩, hl⟩
    obtain ⟨hm', hw'⟩ := mem_historyAt.mp hr'
    exact hmax r' hm' hw' hk
  · rintro ⟨⟨hm, -, hmax⟩, hl⟩
    obtain ⟨hm, hw⟩ := mem_historyAt.mp hm
    exact ⟨hm, hw, hl, fun r' hr' hw' hk => hmax r' (mem_historyAt.mpr ⟨hr', hw'⟩) hk⟩

theorem kvOf_listed_of_live (cfg : Config) (keysOnly : Bool) (h : r.record.isDelete = false) :
    kvOf cfg (r.listed keysOnly)
      = if keysOnly then { r.keyValue with value := [] } else r.keyValue := by
  cases keysOnly with
  | true =>
    rw [if_pos rfl]
    exact kvOf_of_live cfg (r := r.indexed) h
  | false => exact kvOf_of_live cfg h

/-- **読み出しは履歴を返す。** 書き込みだけで到達した store で、prefix 全体の上限なしの `List` は、`R` までの
履歴で最新の record が tombstone でない鍵を、鍵の順にちょうど返す。`Count` はその数を返す。鍵だけを求めた
ときは、値がない。 -/
theorem list_returns_history (cfg : Config) (s : Store) (h : s.Written cfg) (prefix_ : Key) (R : Int)
    (hR : R = 0 ∨ R ≤ s.db.getLatestRev cfg) :
    ∃ live : List RevRecord,
      SortedBy RevRecord.key live ∧
      (∀ r, r ∈ live ↔ doesEventHavePrefix r.key prefix_ = true ∧
        newest RevRecord.key (historyAt R s.committed) r.key = some r ∧
        r.record.isDelete = false) ∧
      (∀ keysOnly splits, list cfg prefix_ prefix_ 0 R keysOnly splits s.db
        = .ok (s.db.getLatestRev cfg, live.map (fun r =>
          if keysOnly then { r.keyValue with value := [] } else r.keyValue))) ∧
      ∀ splits, countScan cfg prefix_ prefix_ R splits s.db
        = .ok (s.db.getLatestRev cfg, live.length) := by
  obtain ⟨hinv, hcompact⟩ := h.inv
  have htr := hinv.tracks
  -- compaction がないので、どの revision も読める
  have hread : Readable cfg R s.db := by
    have hpos := hinv.bounded.pos
    refine ⟨fun hc => ?_, hR.elim (fun h0 => h0 ▸ hpos.le) id⟩
    have hzero : versionstampToInt64 s.db.getCompactRev = 0 := by
      rw [Db.getCompactRev, hcompact]
      rfl
    exact absurd (hc.1.trans hc.2) (by rw [hzero]; exact lt_irrefl 0)
  obtain ⟨range, hrange⟩ := listRange_self prefix_
  obtain ⟨all, hall⟩ := exists_rangeRecs htr.holds prefix_ prefix_
  have hmem : ∀ r, r ∈ chosenOf (pinWindow R) all ↔ doesEventHavePrefix r.key prefix_ = true ∧
      newest RevRecord.key (historyAt R s.committed) r.key = some r ∧
      r.record.isDelete = false := by
    intro r
    rw [hall.mem_chosenOf, liveAt_iff_newest htr.sorted, inListRange_self_eq, and_comm]
  refine ⟨chosenOf (pinWindow R) all, GroupScan.chosen_sorted hall.ordered, hmem, ?_, ?_⟩
  · intro keysOnly splits
    obtain ⟨kvs, hkvs, hw⟩ := list_within htr hinv.bounded hrange hall capacityFits_zero R keysOnly splits
    have hw : kvs = _ := hw.resolve_left hread.notCompacted
    rw [hkvs, hread.pinAnswer_eq, hw]
    refine congrArg (fun l => Except.ok (s.db.getLatestRev cfg, l)) (List.map_congr_left fun r hr => ?_)
    exact kvOf_listed_of_live cfg keysOnly ((hmem r).mp hr).2.2
  · intro splits
    rw [countScan_eq htr hinv.bounded hrange hall, hread.pinAnswer_eq]

/-- 更新、削除、作り直しのある store。 -/
def rewrittenRun : List StoreLabel :=
  [.write (.create [47, 97] [1] 0) 0 1 2, .write (.create [47, 98] [2] 5) 0 2 3,
    .write (.delete [47, 97] 2) 0 3 4, .write (.update [47, 98] [3] 3 6) 0 4 5,
    .write (.create [47, 97] [4] 0) 0 5 6]

/-- revision 4 の時点では、`/a` が消えていて、`/b` はまだ書き換えられていない。 -/
theorem list_returns_history_of_rewritten :
    ∃ s, runSteps (Store.step .default) .init rewrittenRun = some s ∧
      list .default [47] [47] 0 4 false (fun _ => 0) s.db = .ok (6, [⟨[47, 98], 3, 3, 5, [2]⟩]) ∧
      ∃ live : List RevRecord, SortedBy RevRecord.key live ∧
        list .default [47] [47] 0 4 false (fun _ => 0) s.db
          = .ok (s.db.getLatestRev .default, live.map RevRecord.keyValue) ∧
        countScan .default [47] [47] 4 (fun _ => 0) s.db
          = .ok (s.db.getLatestRev .default, live.length) := by
  have h : (runSteps (Store.step .default) .init rewrittenRun).any (fun s =>
      decide (4 ≤ s.db.getLatestRev .default ∧
        list .default [47] [47] 0 4 false (fun _ => 0) s.db
          = .ok (6, [⟨[47, 98], 3, 3, 5, [2]⟩]))) = true := by
    decide +kernel
  obtain ⟨s, hs, hR, hlist⟩ := exists_of_any_decide h
  obtain ⟨live, hsorted, -, hl, hc⟩ :=
    list_returns_history .default s ⟨_, by decide, hs⟩ [47] 4 (Or.inr hR)
  exact ⟨s, hs, hlist, live, hsorted, hl false _, hc _⟩

end KubeFdb
