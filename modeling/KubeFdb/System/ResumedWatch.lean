import KubeFdb.Properties.After
import KubeFdb.Properties.Compaction
import KubeFdb.System.Store

/-!
# compaction の後の watch

`Watch(prefix, M)` は、`M` 以上の event がもう compaction で消えているかもしれないとき、それを
`CompactRevision` で知らせる。`Watch` は `M` を一つ前に直してから watermark と比べるが、直した値の 0 は
「指定なし」と同じに読まれる。`M` が 1 のときは比べないので、消えた event を黙って飛ばす。

知らせるか、すべての event を返すのは、`M` が 2 以上か、compaction が prefix の record を消さないとき
（`RemovesNone`）であり、そのときに限る（`resumed_watch_iff`）。
-/

namespace KubeFdb

open Tuple

/-- watch の prefix に合う record。 -/
def watchMatches (prefix_ : Key) (r : RevRecord) : Bool :=
  doesEventHavePrefix r.key (watchPrefix prefix_)

/-- `M` 以上の合う record。 -/
def watched (prefix_ : Key) (M : Int) (recs : List RevRecord) : List RevRecord :=
  recs.filter (fun r => decide (M ≤ r.revision) && watchMatches prefix_ r)

/-- compaction を知らせるか、すべての event を返したこと。 -/
def ReportsOrComplete (cfg : Config) (hist : List RevRecord) (prefix_ : Key) (M : Int) :
    WatchStart → Prop
  | .compacted compactRevision _ => 0 < compactRevision
  | .unhealthy => False
  | .started events _ => Reports cfg events (watched prefix_ M hist)

/-- `Compact(C)` が prefix の record を消さないこと。読まれる record は、どれも生きていて鍵の最新である。 -/
def RemovesNone (C : Int) (prefix_ : Key) (db : Db) : Prop :=
  ∀ h ∈ unreadHeaders C db none, doesEventHavePrefix h.2.key (watchPrefix prefix_) = true →
    h.2.isDelete = false ∧ ∀ last ∈ db.getLast h.2.key, last.rev = h.1

instance (C : Int) (prefix_ : Key) (db : Db) : Decidable (RemovesNone C prefix_ db) :=
  inferInstanceAs (Decidable (∀ h ∈ unreadHeaders C db none, _ → _ ∧ _))

instance (cfg : Config) (hist : List RevRecord) (prefix_ : Key) (M : Int) (w : WatchStart) :
    Decidable (ReportsOrComplete cfg hist prefix_ M w) :=
  match w with
  | .compacted c _ => inferInstanceAs (Decidable (0 < c))
  | .unhealthy => .isFalse id
  | .started _ _ => inferInstanceAs (Decidable (_ = _))

variable {cfg : Config} {db : Db} {recs : List RevRecord} {prefix_ : Key} {C M : Int}

theorem watchMinRevision_eq (hM : 1 ≤ M) : watchMinRevision M = M - 1 := if_pos (by omega)

/-! ## event と record -/

/-- `M` の一つ前から読む列は、`M` 以上の record である。 -/
theorem afterTodo_watch (hw : ∀ r ∈ recs, r.Wf) (hM : 1 ≤ M) (h63 : M < 2 ^ 63) :
    afterTodo recs (watchMinRevision M) none
      = recs.filter (fun r => decide (M ≤ r.revision)) := by
  rw [watchMinRevision_eq hM, afterTodo_of_nonneg hw (by omega) (by omega)]
  refine List.filter_congr fun r _ => decide_eq_decide.mpr ?_
  omega

/-! ## 最初の読み出し -/

/-- 一つの database を読む `Watch` の結果。 -/
theorem watch_eq (h : db.Holds recs) (hb : db.Bounded cfg recs) (hM : 1 ≤ M) (h63 : M < 2 ^ 63)
    (prefix_ : Key) (splits : Nat → Nat) :
    (AfterCompacted (M - 1) db → ∃ rev, watch cfg prefix_ M splits db
      = .compacted (versionstampToInt64 db.getCompactRev) rev) ∧
    (¬ AfterCompacted (M - 1) db → ∃ events last, watch cfg prefix_ M splits db = .started events last ∧
      Reports cfg events (watched prefix_ M recs)) := by
  have hlen : (afterTodo recs (watchMinRevision M) none).length
      < ([] : List RevRecord).length + (db.byRevision.entries.length + 1) := by
    rw [List.length_nil, Nat.zero_add]
    exact Nat.lt_succ_of_le ((List.length_filter_le _ _).trans h.length_le)
  have hres := processRange_after h hb splits (db.byRevision.entries.length + 1) 0
    (afterInv_start cfg (fun key => doesEventHavePrefix key (watchPrefix prefix_))
      (watchMinRevision M) recs) (Or.inl rfl) hlen
  unfold watch afterAll
  generalize (processRange _ _ splits _ 0 _ db).1 = call at hres
  rw [← watchMinRevision_eq hM]
  cases hres with
  | compacted hc hfail hrev =>
    refine ⟨fun _ => ?_, fun hn => absurd hc hn⟩
    simp only [hfail, watchStart, AfterCollector.toResult, hrev]
    exact ⟨_, rfl⟩
  | done hnc hdone hevents =>
    refine ⟨fun hc => absurd hc hnc, fun _ => ?_⟩
    simp only [hdone, watchStart, AfterCollector.toResult]
    refine ⟨_, _, rfl, ?_⟩
    rw [hevents]
    have hrep := reports_eventsOf cfg (fun key => doesEventHavePrefix key (watchPrefix prefix_)) recs
      (afterTodo recs (watchMinRevision M) none)
    rw [afterTodo_watch h.wf hM h63, List.filter_filter] at hrep
    rw [afterTodo_watch h.wf hM h63]
    simpa only [watched, watchMatches, Bool.and_comm] using hrep

/-! ## Compact の前後 -/

/-- 読まれて消える record がないこと。 -/
theorem removesNone_iff (h : db.Holds recs) :
    RemovesNone C prefix_ db ↔ ∀ r ∈ compactTodo recs none C, watchMatches prefix_ r = true →
      discards recs r = false := by
  unfold RemovesNone
  rw [show (none : Option RevKey) = (none : Option Versionstamp).map (chunkKey · maxInt64) from rfl,
    unreadHeaders_eq h]
  simp only [List.forall_mem_map]
  refine forall₂_congr fun r hr => imp_congr_right fun _ => ?_
  exact (discards_eq_false_iff h (mem_compactTodo.mp hr).1).symm

/-- 消えた record が選ばれるものでなければ、compaction は選んだ列を変えない。 -/
theorem filter_compactRecs {visited : List RevRecord} {q : RevRecord → Bool}
    (hq : ∀ r ∈ visited, q r = true → discards recs r = false) :
    (compactRecs recs visited).filter q = recs.filter q := by
  unfold compactRecs
  rw [List.filter_filter]
  refine List.filter_congr fun r _ => ?_
  cases hqr : q r with
  | false => rfl
  | true =>
    by_cases hv : r ∈ visited
    · simp [hq r hv hqr]
    · simp [hv]

/-- すべての event が残っているなら、選ばれる record は消えていない。 -/
theorem discards_eq_false_of_reports {visited : List RevRecord} {q : RevRecord → Bool}
    (hs : SortedBy RevRecord.rev recs) (hw : ∀ r ∈ recs, r.Wf) (hvis : ∀ r ∈ visited, r ∈ recs)
    {events : List Event} (h : Reports cfg events ((compactRecs recs visited).filter q))
    (h' : Reports cfg events (recs.filter q)) :
    ∀ r ∈ visited, q r = true → discards recs r = false := by
  intro r hr hqr
  have hmem : r.revision ∈ (recs.filter q).map RevRecord.revision :=
    List.mem_map.mpr ⟨r, List.mem_filter.mpr ⟨hvis r hr, hqr⟩, rfl⟩
  rw [← h'.modRevision, h.modRevision] at hmem
  obtain ⟨r', hr', hrev⟩ := List.mem_map.mp hmem
  obtain ⟨hr'm, -⟩ := List.mem_filter.mp hr'
  obtain ⟨hr'recs, hkeep⟩ := mem_compactRecs.mp hr'm
  have hrr : r' = r := hs.eq_of_index_eq hr'recs (hvis r hr)
    ((hw r' hr'recs).rev.eq_of_int64_eq (hw r (hvis r hr)).rev hrev)
  subst hrr
  by_contra hd
  exact hkeep ⟨hr, by simpa using hd⟩

/-- 消えた record は watermark を超えない。 -/
theorem le_getCompactRev (h : db.Holds recs) {db' : Db} {visited : List RevRecord}
    (hs : SortedBy RevRecord.rev visited) (hvis : ∀ r ∈ visited, r ∈ recs)
    (hc : Compacted recs visited db db') {r : RevRecord} (hr : r ∈ visited) :
    r.revision ≤ versionstampToInt64 db'.getCompactRev := by
  rw [hc.getCompactRev]
  cases hl : lastVisited visited with
  | none =>
    rw [lastVisited, Option.map_eq_none_iff, List.getLast?_eq_none_iff] at hl
    rw [hl] at hr
    exact absurd hr List.not_mem_nil
  | some rev =>
    have hle := le_lastVisited hs hl r hr
    obtain ⟨z, hz, rfl⟩ := Option.map_eq_some_iff.mp hl
    exact ((h.wf r (hvis r hr)).rev.le_iff (h.wf z (hvis z (List.mem_of_getLast? hz))).rev).mp hle

/-- 知らされない watch が読む列は、`M` が 2 以上か、合う record が消えないなら、compaction で変わらない。 -/
theorem watched_compactRecs (h : db.Holds recs) {db' : Db}
    (hcomp : Compacted recs (compactTodo recs none C) db db') (hc : ¬ AfterCompacted (M - 1) db')
    (hcond : 2 ≤ M ∨ ∀ r ∈ compactTodo recs none C, watchMatches prefix_ r = true →
      discards recs r = false) :
    watched prefix_ M (compactRecs recs (compactTodo recs none C)) = watched prefix_ M recs := by
  refine filter_compactRecs fun r hr hq => ?_
  obtain ⟨hge, hmatch⟩ := Bool.and_eq_true_iff.mp hq
  rcases hcond with h2 | hnone
  · -- 消えた record は watermark 以下だから、`M` より古い
    have hle := le_getCompactRev h (compactTodo_sorted h.sorted none C)
      (fun r hr => (mem_compactTodo.mp hr).1) hcomp hr
    have hge := of_decide_eq_true hge
    unfold AfterCompacted at hc
    omega
  · exact hnone r hr hmatch

/-- 書き込みの後に `Compact(C)` が終わった store で、`Watch(prefix, M)` が compaction を知らせるか、
commit された `M` 以上の合う event をすべて返すのは、連番の設定か、`M` が 2 以上か、`Compact(C)` が
合う record を消さないときであり、そのときに限る。 -/
theorem resumed_watch_iff (cfg : Config) {s : Store} (hs : s.Written cfg) (C : Int) {M : Int}
    (hM : 1 ≤ M) (h63 : M < 2 ^ 63) (prefix_ : Key) (splits splits' : Nat → Nat) :
    ReportsOrComplete cfg s.committed prefix_ M
        (watch cfg prefix_ M splits' (compact cfg C splits s.db).2) ↔
      (cfg.useSequentialId = true ∨ 2 ≤ M ∨ RemovesNone C prefix_ s.db) := by
  obtain ⟨h, hrev⟩ := hs.inv
  have hh := h.tracks.holds
  cases hm : cfg.useSequentialId with
  | true =>
    have hnc : ¬ AfterCompacted (M - 1) s.db := by
      rintro ⟨hpos, hlt⟩
      unfold Db.getCompactRev at hlt
      rw [hrev] at hlt
      exact absurd (hpos.trans hlt) (by decide)
    obtain ⟨events, last, hw, hrep⟩ := (watch_eq hh h.bounded hM h63 prefix_ splits').2 hnc
    rw [compact_of_sequential hm, hw]
    exact iff_of_true hrep (Or.inl rfl)
  | false =>
    obtain ⟨db', hcompact, hcomp⟩ := compact_eq cfg hh hm C splits
    have ht' := hcomp.tracks h.tracks
    have hb' : db'.Bounded cfg (compactRecs s.committed (compactTodo s.committed none C)) := by
      have hb := hcomp.bounded h.bounded
      exact ⟨fun r hr => hb.le r (ht'.sub r hr), hb.pos, hb.lt⟩
    have hvis : ∀ r ∈ compactTodo s.committed none C, r ∈ s.committed :=
      fun r hr => (mem_compactTodo.mp hr).1
    obtain ⟨hreport, hstart⟩ := watch_eq ht'.holds hb' hM h63 prefix_ splits'
    rw [hcompact, removesNone_iff hh]
    by_cases hc : AfterCompacted (M - 1) db'
    · obtain ⟨rev, hw⟩ := hreport hc
      rw [hw]
      refine iff_of_true (hc.1.trans hc.2) (Or.inr (Or.inl ?_))
      have := hc.1
      omega
    · obtain ⟨events, last, hw, hrep⟩ := hstart hc
      rw [hw]
      constructor
      · intro hall
        by_cases h2 : 2 ≤ M
        · exact Or.inr (Or.inl h2)
        · -- `M` が 1 のときは watermark と比べないから、消えた record はない
          obtain rfl : M = 1 := by omega
          refine Or.inr (Or.inr fun r hr hmatch => ?_)
          refine discards_eq_false_of_reports hh.sorted hh.wf hvis hrep hall r hr ?_
          rw [hmatch, Bool.and_true]
          exact decide_eq_true (hh.wf r (hvis r hr)).rev.pos
      · intro hcond
        have hcond := hcond.resolve_left (by decide)
        show Reports cfg events (watched prefix_ M s.committed)
        rw [← watched_compactRecs hh hcomp hc hcond]
        exact hrep

/-- `M` が 2 の watch は、消えた record を知らせる。 -/
theorem resumed_watch_of_two :
    ∃ s, runSteps (Store.step .default) .init
        [.write (.create [47, 97] [1] 0) 0 1 2, .write (.update [47, 97] [2] 2 0) 0 2 3] = some s ∧
      ReportsOrComplete .default s.committed [47] 2
        (watch .default [47] 2 (fun _ => 0) (compact .default 3 (fun _ => 0) s.db).2) := by
  obtain ⟨s, hs⟩ := Option.isSome_iff_exists.mp (show (runSteps (Store.step .default) .init
    [.write (.create [47, 97] [1] 0) 0 1 2,
      .write (.update [47, 97] [2] 2 0) 0 2 3]).isSome = true by decide +kernel)
  exact ⟨s, hs, (resumed_watch_iff .default ⟨_, by decide, hs⟩ 3 (by decide) (by decide) [47] _ _).mpr
    (Or.inr (Or.inl (le_refl 2)))⟩

/-- 鍵が revision 2 で作られ 3 で書き換えられた store で `Compact(3)` の後に revision 1 から見ると、
作られた event がなく、compaction も知らされない。 -/
theorem watch_from_one_skips :
    ∃ s, runSteps (Store.step .default) .init
        [.write (.create [47, 97] [1] 0) 0 1 2, .write (.update [47, 97] [2] 2 0) 0 2 3] = some s ∧
      ¬ ReportsOrComplete .default s.committed [47] 1
        (watch .default [47] 1 (fun _ => 5) (compact .default 3 (fun _ => 5) s.db).2) := by
  have h : (runSteps (Store.step .default) .init
      [.write (.create [47, 97] [1] 0) 0 1 2, .write (.update [47, 97] [2] 2 0) 0 2 3]).any (fun s =>
      decide (¬ ReportsOrComplete .default s.committed [47] 1
        (watch .default [47] 1 (fun _ => 5) (compact .default 3 (fun _ => 5) s.db).2))) = true := by
    decide +kernel
  exact exists_of_any_decide h

end KubeFdb
