import KubeFdb.Properties.Compaction
import KubeFdb.Properties.Views
import KubeFdb.System.Store

/-!
# compaction と pin した読み出し

`Compact(C)` の後も、`C` 以上の revision `R` の読み出しは同じ答えを返すはずである。
`compactProcessor.next` は、鍵の最新（`getLast`）でない record をすべて消す。残すべきなのは `C` 以下で
最新の record だが、鍵が `C` の後で書き換えられていると、それも消える。

答えが変わらないのは、`C` までに読まれる record のうち `R` で見えるものが、どれも鍵の最後の record
であるとき（`PinKept`）であり、そのときに限る（`compact_invisible_iff`）。
-/

namespace KubeFdb

open Tuple

/-- `Compact(C)` が `R` の読み出しを変えない条件。 -/
structure PinKept (C R : Int) (db : Db) : Prop where
  /-- 読まれる record は `R` を超えない。負の `C` は大きな revision として読まれる。 -/
  watermark : 0 < R → ∀ e ∈ db.byKeyAndRevision.entries, e.1.rev ≤ int64ToVersionstamp C →
    versionstampToInt64 e.1.rev ≤ R
  /-- 読まれる record のうち `R` で見えるものは、鍵の最後の record である。 -/
  visible : ∀ e ∈ db.byKeyAndRevision.entries, e.2.isDelete = false →
    e.1.rev ≤ int64ToVersionstamp C → pinWindow R e.1.rev = true →
    (∀ e' ∈ db.byKeyAndRevision.entries, e'.1.key = e.1.key → pinWindow R e'.1.rev = true →
      e'.1.rev ≤ e.1.rev) →
    ∀ last ∈ db.getLast e.1.key, last.rev = e.1.rev

instance (C R : Int) (db : Db) : Decidable (PinKept C R db) :=
  decidable_of_iff
    ((0 < R → ∀ e ∈ db.byKeyAndRevision.entries, e.1.rev ≤ int64ToVersionstamp C →
      versionstampToInt64 e.1.rev ≤ R) ∧
    ∀ e ∈ db.byKeyAndRevision.entries, e.2.isDelete = false →
      e.1.rev ≤ int64ToVersionstamp C → pinWindow R e.1.rev = true →
      (∀ e' ∈ db.byKeyAndRevision.entries, e'.1.key = e.1.key → pinWindow R e'.1.rev = true →
        e'.1.rev ≤ e.1.rev) →
      ∀ last ∈ db.getLast e.1.key, last.rev = e.1.rev)
    ⟨fun h => ⟨h.1, h.2⟩, fun h => ⟨h.watermark, h.visible⟩⟩

variable {cfg : Config} {C R : Int} {db db' : Db} {recs : List RevRecord}

/-! ## 見える record -/

/-- 見える record が消えるのは、読まれて、鍵のより新しい record があるときである。 -/
theorem liveAt_compact_iff (hs : SortedBy RevRecord.rev recs) :
    (∀ r, LiveAt R recs r ↔ LiveAt R (compactRecs recs (compactTodo recs none C)) r) ↔
      ∀ r, LiveAt R recs r → r.rev ≤ int64ToVersionstamp C →
        newest RevRecord.key recs r.key = some r := by
  have hread : ∀ {r}, r ∈ recs → r.rev ≤ int64ToVersionstamp C → r ∈ compactTodo recs none C :=
    fun hr hle => mem_compactTodo.mpr ⟨hr, by simp, hle⟩
  constructor
  · intro hsame r hl hle
    -- 残ったのだから、より新しい record はない
    have hkeep := (mem_compactRecs.mp ((hsame r).mp hl).mem).2
    refine (newest_eq_some_iff hs).mpr ⟨hl.mem, rfl, fun r' hr' hk => ?_⟩
    by_contra hlt
    exact hkeep ⟨hread hl.mem hle, discards_iff.mpr (Or.inl ⟨r', hr', hk, not_le.mp hlt⟩)⟩
  · intro hnew r
    have hkept : ∀ {r}, LiveAt R recs r → r ∈ compactRecs recs (compactTodo recs none C) := by
      intro r hl
      refine mem_compactRecs.mpr ⟨hl.mem, ?_⟩
      rintro ⟨hvis, hdis⟩
      have hn := hnew r hl (mem_compactTodo.mp hvis).2.2
      rcases discards_iff.mp hdis with ⟨r', hr', hk, hlt⟩ | hdel
      · exact absurd (((newest_eq_some_iff hs).mp hn).2.2 r' hr' hk) (not_le.mpr hlt)
      · have hlive := hl.live
        simp [RevRecord.live, hdel] at hlive
    constructor
    · intro hl
      exact ⟨hkept hl, hl.window, hl.live, fun r' hr' => hl.newest r' (mem_compactRecs.mp hr').1⟩
    · intro hl
      obtain ⟨hr, hkeep⟩ := mem_compactRecs.mp hl.mem
      refine ⟨hr, hl.window, hl.live, fun r' hr' hw hk => ?_⟩
      by_contra hlt
      have hlt := not_le.mp hlt
      -- `R` までで最新の record を取ると、それは消えているはずである
      obtain ⟨t, ht⟩ := exists_newest RevRecord.key
        (List.mem_filter (p := fun r => pinWindow R r.rev).mpr ⟨hr', hw⟩) hk
      obtain ⟨htm, htk, htmax⟩ := (newest_eq_some_iff (hs.filter _)).mp ht
      obtain ⟨htr, htw⟩ := List.mem_filter.mp htm
      have hrt : r.rev < t.rev := hlt.trans_le (htmax r' (List.mem_filter.mpr ⟨hr', hw⟩) hk)
      by_cases htl : t.live = true
      · have hlt' : LiveAt R recs t := ⟨htr, htw, htl, fun x hx hxw hxk =>
          htmax x (List.mem_filter.mpr ⟨hx, hxw⟩) (hxk.trans htk)⟩
        exact absurd (hl.newest t (hkept hlt') htw htk) (not_le.mpr hrt)
      · have hdel : t.record.isDelete = true := by simpa [RevRecord.live] using htl
        have htgone : t ∈ compactTodo recs none C := by
          by_contra hc
          exact absurd (hl.newest t (mem_compactRecs.mpr ⟨htr, fun h => hc h.1⟩) htw htk)
            (not_le.mpr hrt)
        have hle := (mem_compactTodo.mp htgone).2.2
        exact hkeep ⟨hread hr (hrt.le.trans hle), discards_iff.mpr (Or.inl ⟨t, htr, htk, hrt⟩)⟩

/-- `visible` を列の上で述べる。 -/
theorem pinKept_visible_iff (h : db.Holds recs) :
    (∀ e ∈ db.byKeyAndRevision.entries, e.2.isDelete = false →
      e.1.rev ≤ int64ToVersionstamp C → pinWindow R e.1.rev = true →
      (∀ e' ∈ db.byKeyAndRevision.entries, e'.1.key = e.1.key → pinWindow R e'.1.rev = true →
        e'.1.rev ≤ e.1.rev) →
      ∀ last ∈ db.getLast e.1.key, last.rev = e.1.rev) ↔
      ∀ r, LiveAt R recs r → r.rev ≤ int64ToVersionstamp C →
        newest RevRecord.key recs r.key = some r := by
  have hlive : ∀ {r : RevRecord}, r.live = true ↔ (indexEntry r).2.isDelete = false := by
    intro r
    show (!r.record.isDelete) = true ↔ r.record.isDelete = false
    simp
  rw [h.forall_index]
  constructor
  · intro hall r hl hle
    refine (getLast_rev_iff h hl.mem).mp (hall r hl.mem (hlive.mp hl.live) hle hl.window ?_)
    exact h.forall_index.mpr fun r' hr' hk hw => hl.newest r' hr' hw hk
  · intro hall r hr hd hle hw hmax
    refine (getLast_rev_iff h hr).mpr (hall r ⟨hr, hw, hlive.mpr hd, fun r' hr' hw' hk => ?_⟩ hle)
    exact h.forall_index.mp hmax r' hr' hk hw'

/-! ## watermark -/

/-- 書き込みだけの store の watermark は、compaction が最後に読んだ revision になる。 -/
theorem pinCompacted_compact_iff (h : db.Holds recs) (h0 : db.compactRev = none)
    (hc : Compacted recs (compactTodo recs none C) db db') :
    ¬ PinCompacted R db' ↔
      (0 < R → ∀ e ∈ db.byKeyAndRevision.entries, e.1.rev ≤ int64ToVersionstamp C →
        versionstampToInt64 e.1.rev ≤ R) := by
  have hsorted := compactTodo_sorted h.sorted none C
  have hread : ∀ {r}, r ∈ compactTodo recs none C ↔ r ∈ recs ∧ r.rev ≤ int64ToVersionstamp C := by
    intro r
    rw [mem_compactTodo]
    simp
  unfold PinCompacted
  rw [hc.getCompactRev, not_and, not_lt]
  refine imp_congr_right fun hpos => ?_
  cases hl : lastVisited (compactTodo recs none C) with
  | none =>
    rw [lastVisited, Option.map_eq_none_iff, List.getLast?_eq_none_iff] at hl
    refine iff_of_true ?_ fun e he hle => ?_
    · have hzero : versionstampToInt64 db.getCompactRev = 0 := by
        unfold Db.getCompactRev
        rw [h0]
        rfl
      show versionstampToInt64 db.getCompactRev ≤ R
      rw [hzero]
      exact hpos.le
    · obtain ⟨r, hr, rfl⟩ := (h.index e).mp he
      have hmem := hread.mpr ⟨hr, hle⟩
      rw [hl] at hmem
      exact absurd hmem List.not_mem_nil
  | some rev =>
    have hmax := le_lastVisited hsorted hl
    obtain ⟨z, hz, rfl⟩ := Option.map_eq_some_iff.mp hl
    have hzm := hread.mp (List.mem_of_getLast? hz)
    constructor
    · intro hle e he hcut
      obtain ⟨r, hr, rfl⟩ := (h.index e).mp he
      have hrz := hmax r (hread.mpr ⟨hr, hcut⟩)
      exact (((h.wf r hr).rev.le_iff (h.wf z hzm.1).rev).mp hrz).trans hle
    · intro hall
      exact hall (indexEntry z) ((h.index _).mpr ⟨z, hzm.1, rfl⟩) hzm.2

/-! ## Compact の前後 -/

/-- 書き込みだけで到達した store で、`Compact(C)` は必ず終わる。その前後で `R` の読み出しが同じ答えを
返すのは、連番の設定か、`PinKept` のときであり、そのときに限る。 -/
theorem compact_invisible_iff (cfg : Config) {s : Store} (hs : s.Written cfg) (C : Int) {R : Int}
    (hR : R ≤ s.db.getLatestRev cfg) (splits : Nat → Nat) :
    ((compact cfg C splits s.db).1 = .done ∧ SameAnswers cfg R s.db (compact cfg C splits s.db).2) ↔
      (cfg.useSequentialId = true ∨ PinKept C R s.db) := by
  obtain ⟨h, hrev⟩ := hs.inv
  have hr : Readable cfg R s.db := by
    refine ⟨fun hc => ?_, hR⟩
    have hlt := hc.1.trans hc.2
    unfold Db.getCompactRev at hlt
    rw [hrev] at hlt
    exact absurd hlt (by decide)
  cases hm : cfg.useSequentialId with
  | true =>
    rw [compact_of_sequential hm]
    refine iff_of_true ⟨rfl, ?_⟩ (Or.inl rfl)
    exact sameAnswers_of_liveAt h.tracks h.tracks h.boundedRecs h.boundedRecs hr hr
      (fun r => Iff.rfl)
  | false =>
    obtain ⟨db', hcompact, hcomp⟩ := compact_eq cfg h.tracks.holds hm C splits
    have ht' := hcomp.tracks h.tracks
    have hb' := hcomp.bounded h.bounded
    have hlatest : db'.getLatestRev cfg = s.db.getLatestRev cfg := by
      unfold Db.getLatestRev
      rw [hcomp.version, hcomp.latestRev]
    rw [hcompact, sameAnswers_iff h.tracks ht' h.boundedRecs
      ⟨fun r hr => hb'.le r (ht'.sub r hr), hb'.pos, hb'.lt⟩ hr (hlatest ▸ hR),
      pinCompacted_compact_iff h.tracks.holds hrev hcomp,
      liveAt_compact_iff h.tracks.holds.sorted, ← pinKept_visible_iff h.tracks.holds]
    constructor
    · rintro ⟨-, hw, hv⟩
      exact Or.inr ⟨hw, hv⟩
    · rintro (hc | ⟨hw, hv⟩)
      · exact absurd hc (by decide)
      · exact ⟨rfl, hw, hv⟩

/-- 書き換えのない鍵と、`C` の後で書かれた鍵だけの store。 -/
theorem compact_invisible_of_current :
    ∃ s, runSteps (Store.step .default) .init
        [.write (.create [97] [1] 0) 0 1 2, .write (.update [97] [2] 2 0) 0 2 3,
          .write (.create [98] [3] 0) 0 3 4] = some s ∧
      SameAnswers .default 3 s.db (compact .default 3 (fun _ => 0) s.db).2 := by
  have h : (runSteps (Store.step .default) .init
      [.write (.create [97] [1] 0) 0 1 2, .write (.update [97] [2] 2 0) 0 2 3,
        .write (.create [98] [3] 0) 0 3 4]).any (fun s =>
      decide (3 ≤ s.db.getLatestRev .default ∧ PinKept 3 3 s.db)) = true := by
    decide +kernel
  obtain ⟨s, hs, hR, hkept⟩ := exists_of_any_decide h
  exact ⟨s, hs, ((compact_invisible_iff .default ⟨_, by decide, hs⟩ 3 hR (fun _ => 0)).mpr
    (Or.inr hkept)).2⟩

/-- 鍵が revision 2 で作られ 3 で書き換えられた store で `Compact(2)` を走らせると、revision 2 の
読み出しから鍵が消える。error にもならない。 -/
theorem compact_hides_overwritten :
    ∃ s, runSteps (Store.step .default) .init
        [.write (.create [97] [1] 0) 0 1 2, .write (.update [97] [2] 2 0) 0 2 3] = some s ∧
      get .default [97] [] 2 false (fun _ => 5) s.db = .ok (3, some ⟨[97], 2, 2, 0, [1]⟩) ∧
      (compact .default 2 (fun _ => 5) s.db).1 = .done ∧
      get .default [97] [] 2 false (fun _ => 5) (compact .default 2 (fun _ => 5) s.db).2
        = .ok (3, none) := by
  have h : (runSteps (Store.step .default) .init
      [.write (.create [97] [1] 0) 0 1 2, .write (.update [97] [2] 2 0) 0 2 3]).any (fun s =>
      decide (get .default [97] [] 2 false (fun _ => 5) s.db = .ok (3, some ⟨[97], 2, 2, 0, [1]⟩) ∧
        (compact .default 2 (fun _ => 5) s.db).1 = .done ∧
        get .default [97] [] 2 false (fun _ => 5) (compact .default 2 (fun _ => 5) s.db).2
          = .ok (3, none))) = true := by
    decide +kernel
  exact exists_of_any_decide h

end KubeFdb
