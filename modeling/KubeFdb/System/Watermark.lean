import KubeFdb.Properties.Compaction
import KubeFdb.System.Store

/-!
# compaction の watermark

`compactProcessor.endBatch` は watermark を、batch が最後に読んだ revision で上書きする。
後から始まった `Compact` は残っている最古の record から読み直すので、watermark は戻ることがある。

watermark が戻らず、消された record をすべて覆うのは、どの batch も何も読まないか、watermark
以上の record を一つは読むときである（`watermark_kept_iff`）。
-/

namespace KubeFdb

open Tuple

/-- batch の手の前の条件。読む record がないか、読む record のどれかが watermark 以上である。 -/
def ReachesWatermark (s : Store) : StoreLabel → Prop
  | .compactBatch i n _ _ => ∀ x ∈ s.compacts[i]?,
      unreadHeaders x.1 s.db x.2.beginKey = [] ∨
        ∃ h ∈ (unreadHeaders x.1 s.db x.2.beginKey).take (n + 1), s.db.getCompactRev ≤ h.1
  | _ => True

instance (s : Store) : (a : StoreLabel) → Decidable (ReachesWatermark s a)
  | .compactBatch i n _ _ => inferInstanceAs (Decidable (∀ x ∈ s.compacts[i]?,
      unreadHeaders x.1 s.db x.2.beginKey = [] ∨
        ∃ h ∈ (unreadHeaders x.1 s.db x.2.beginKey).take (n + 1), s.db.getCompactRev ≤ h.1))
  | .tick _ => .isTrue trivial
  | .write _ _ _ _ => .isTrue trivial
  | .startCompact _ => .isTrue trivial

/-- 消された record はどれも watermark 以下である。 -/
def Store.WatermarkSound (s : Store) : Prop :=
  ∀ r ∈ s.committed, ¬ s.db.Logged r.rev → r.rev ≤ s.db.getCompactRev

/-- 手の後の watermark が戻らず、消された record をすべて覆うこと。 -/
def WatermarkKept (cfg : Config) (s : Store) (a : StoreLabel) : Prop :=
  ∀ s', s.step cfg a = some s' → s.db.getCompactRev ≤ s'.db.getCompactRev ∧ s'.WatermarkSound

instance (s : Store) : Decidable s.WatermarkSound :=
  inferInstanceAs (Decidable (∀ r ∈ s.committed, _ → _))

variable {cfg : Config} {s s' : Store} {recs recs' : List RevRecord} {a : StoreLabel}

/-! ## 一手の watermark -/

/-- 手の前から残っていない record か、手の後の watermark 以下の record だけが、手の後の列にない。 -/
theorem Store.Effect.removed (h : s.Inv cfg recs) (he : Store.Effect cfg s recs a s' recs')
    {r : RevRecord} (hr : r ∈ s'.committed) (hr' : r ∉ recs') :
    (r ∈ s.committed ∧ r ∉ recs) ∨ r.rev ≤ s'.db.getCompactRev := by
  cases he with
  | idle _ ha v hv hv63 calls hcalls => exact Or.inl ⟨hr, hr'⟩
  | wrote op lastWriteUUID uuid v record size hc ht hw =>
    simp only [List.mem_append, List.mem_singleton, not_or] at hr hr'
    exact Or.inl ⟨hr.resolve_right hr'.2, hr'.1⟩
  | compacted i n v known endRev c c' db' begin_ hc hi hrun hb hbatch heq =>
    by_cases hmem : r ∈ recs
    · -- 消えたのなら読まれているから、最後に読んだ revision 以下である
      have hvis : r ∈ compactVisits recs begin_ endRev n := by
        by_contra hc
        exact hr' (mem_compactRecs.mpr ⟨hmem, fun h => hc h.1⟩)
      have hsorted := compactVisits_sorted h.tracks.holds.sorted begin_ endRev n
      right
      rw [show (db'.commit v).getCompactRev = _ from hbatch.toCompacted.getCompactRev]
      cases hl : lastVisited (compactVisits recs begin_ endRev n) with
      | none =>
        rw [lastVisited, Option.map_eq_none_iff, List.getLast?_eq_none_iff] at hl
        simp [hl] at hvis
      | some rev => exact le_lastVisited hsorted hl r hvis
    · exact Or.inl ⟨hr, hmem⟩

/-- watermark は、最新の revision を超えない。 -/
theorem Store.Effect.compactRev_le (h : s.Inv cfg recs) (he : Store.Effect cfg s recs a s' recs')
    (hle : versionstampToInt64 s.db.getCompactRev ≤ s.db.getLatestRev cfg) :
    versionstampToInt64 s'.db.getCompactRev ≤ s'.db.getLatestRev cfg := by
  refine le_trans ?_ (he.latest_le h)
  cases he with
  | idle _ ha v hv hv63 calls hcalls => exact hle
  | wrote op lastWriteUUID uuid v record size hc ht hw =>
    unfold Db.getCompactRev Db.commit at *
    rwa [append_compactRev]
  | compacted i n v known endRev c c' db' begin_ hc hi hrun hb hbatch heq =>
    rw [show (db'.commit v).getCompactRev = _ from hbatch.toCompacted.getCompactRev]
    cases hl : lastVisited (compactVisits recs begin_ endRev n) with
    | none => exact hle
    | some rev =>
      obtain ⟨z, hz, rfl⟩ := Option.map_eq_some_iff.mp hl
      exact h.boundedRecs.le z
        (mem_compactTodo.mp (mem_of_mem_compactVisits (List.mem_of_getLast? hz))).1

/-- 到達できる store の watermark は、最新の revision を超えない。 -/
theorem Store.Reachable.compactRev_le (h : s.Reachable cfg) :
    versionstampToInt64 s.db.getCompactRev ≤ s.db.getLatestRev cfg := by
  obtain ⟨as, hr⟩ := h
  obtain ⟨-, -, hle⟩ := run_invariant
    (P := fun s => ∃ recs, s.Inv cfg recs ∧
      versionstampToInt64 s.db.getCompactRev ≤ s.db.getLatestRev cfg)
    (fun s a s' ⟨recs, hi, hle⟩ hs => by
      obtain ⟨recs', he, hi'⟩ := Store.inv_step hi hs
      exact ⟨recs', hi', he.compactRev_le hi hle⟩)
    ⟨[], Store.init_inv cfg, (Store.init_inv cfg).bounded.pos.le⟩ hr
  exact hle

/-- watermark が戻らない手は、消された record を覆い続ける。 -/
theorem Store.Effect.watermarkSound (h : s.Inv cfg recs) (he : Store.Effect cfg s recs a s' recs')
    (hsound : s.WatermarkSound) (hle : s.db.getCompactRev ≤ s'.db.getCompactRev) :
    s'.WatermarkSound := by
  intro r hr hlog
  have h' := h.effect he
  have hr' : r ∉ recs' := fun hm => hlog (h'.tracks.holds.logged_iff.mpr ⟨r, hm, rfl⟩)
  rcases he.removed h hr hr' with ⟨hc, hn⟩ | hle'
  · refine (hsound r hc fun hl => ?_).trans hle
    obtain ⟨r₁, hr₁, hrev⟩ := h.tracks.holds.logged_iff.mp hl
    exact hn (h.tracks.sorted.eq_of_index_eq (h.tracks.sub r₁ hr₁) hc hrev ▸ hr₁)
  · exact hle'

/-- 手の前の条件は、watermark が戻らないことと同値である。 -/
theorem reachesWatermark_iff (h : s.Inv cfg recs) (he : Store.Effect cfg s recs a s' recs') :
    ReachesWatermark s a ↔ s.db.getCompactRev ≤ s'.db.getCompactRev := by
  cases he with
  | idle _ ha v hv hv63 calls hcalls =>
    have htrue : ReachesWatermark s a := by
      cases a with
      | compactBatch i n v known => exact absurd rfl (ha i n v known)
      | _ => trivial
    exact iff_of_true htrue le_rfl
  | wrote op lastWriteUUID uuid v record size hc ht hw =>
    refine iff_of_true trivial (le_of_eq ?_)
    unfold Db.getCompactRev Db.commit
    rw [append_compactRev]
  | compacted i n v known endRev c c' db' begin_ hc hi hrun hb hbatch heq =>
    have hsorted := compactVisits_sorted h.tracks.holds.sorted begin_ endRev n
    have hcond : ReachesWatermark s (.compactBatch i n v known) ↔
        compactTodo recs begin_ endRev = [] ∨
          ∃ r ∈ compactVisits recs begin_ endRev n, s.db.getCompactRev ≤ r.rev := by
      simp only [ReachesWatermark, hi, Option.mem_def, Option.some.injEq, forall_eq', hb,
        unreadHeaders_eq h.tracks.holds, List.map_eq_nil_iff, ← List.map_take, List.mem_map,
        exists_exists_and_eq_and]
      rfl
    rw [hcond, show (db'.commit v).getCompactRev = _ from hbatch.toCompacted.getCompactRev]
    cases hl : lastVisited (compactVisits recs begin_ endRev n) with
    | none =>
      rw [lastVisited, Option.map_eq_none_iff, List.getLast?_eq_none_iff] at hl
      have hnil : compactTodo recs begin_ endRev = [] := by
        simpa [compactVisits] using hl
      exact iff_of_true (Or.inl hnil) le_rfl
    | some rev =>
      obtain ⟨z, hz, rfl⟩ := Option.map_eq_some_iff.mp hl
      have hzm := List.mem_of_getLast? hz
      constructor
      · rintro (hnil | ⟨r, hr, hle⟩)
        · simp [compactVisits, hnil] at hzm
        · exact hle.trans (le_lastVisited hsorted hl r hr)
      · intro hle
        exact Or.inr ⟨z, hzm, hle⟩

/-! ## run の watermark -/

theorem Store.init_watermarkSound : Store.init.WatermarkSound :=
  fun _ hr => absurd hr List.not_mem_nil

/-- run のどの手でも watermark が戻らず消された record を覆うのは、どの batch も読む record がないか、
watermark 以上の record を読むときであり、そのときに限る。 -/
theorem watermark_kept_iff (cfg : Config) {as : List StoreLabel} {s : Store}
    (hr : runSteps (Store.step cfg) .init as = some s) :
    StepsMeet (Store.step cfg) (WatermarkKept cfg) .init as ↔
      StepsMeet (Store.step cfg) ReachesWatermark .init as := by
  refine (stepsMeet_congr (P := fun s => (∃ recs, s.Inv cfg recs) ∧ s.WatermarkSound)
    ?_ ?_ ⟨⟨[], Store.init_inv cfg⟩, Store.init_watermarkSound⟩ hr).symm
  · rintro s a s' ⟨⟨recs, h⟩, hsound⟩ hok hs
    obtain ⟨recs', he, h'⟩ := Store.inv_step h hs
    exact ⟨⟨recs', h'⟩, he.watermarkSound h hsound ((reachesWatermark_iff h he).mp hok)⟩
  · rintro s a s' ⟨⟨recs, h⟩, hsound⟩ hs
    obtain ⟨recs', he, h'⟩ := Store.inv_step h hs
    rw [reachesWatermark_iff h he]
    constructor
    · intro hle s₁ hs₁
      obtain rfl : s' = s₁ := Option.some.inj (hs.symm.trans hs₁)
      exact ⟨hle, he.watermarkSound h hsound hle⟩
    · intro hkept
      exact (hkept s' hs).1

/-- 二つの鍵を書き、片方を書き換える。 -/
def overwriteRun : List StoreLabel :=
  [.write (.create [97] [1] 0) 0 1 2, .write (.create [98] [2] 0) 0 2 3,
    .write (.update [98] [3] 3 0) 0 3 4]

/-- `endRev` が増えていく二つの `Compact`。二つ目は一つ目の残した record から読み直すが、
一つの batch で新しい record まで読む。 -/
theorem watermark_kept_of_increasing :
    StepsMeet (Store.step .default) (WatermarkKept .default) .init
      (overwriteRun ++ [.startCompact 3, .compactBatch 0 5 5 true,
        .startCompact 4, .compactBatch 1 5 6 true]) := by
  obtain ⟨s, hs⟩ : ∃ s, runSteps (Store.step .default) .init
      (overwriteRun ++ [.startCompact 3, .compactBatch 0 5 5 true,
        .startCompact 4, .compactBatch 1 5 6 true]) = some s :=
    Option.isSome_iff_exists.mp (by decide +kernel)
  exact (watermark_kept_iff .default hs).mpr (by decide +kernel)

/-- `Compact(4)` の後に `Compact(2)` を走らせると、revision 3 の record は消えているのに
watermark は 2 に戻る。 -/
theorem watermark_lowered :
    ∃ s s', runSteps (Store.step .default) .init (overwriteRun ++
        [.startCompact 4, .compactBatch 0 5 5 true, .startCompact 2]) = some s ∧
      s.step .default (.compactBatch 1 5 6 true) = some s' ∧
      s'.db.getCompactRev < s.db.getCompactRev ∧ ¬ s'.WatermarkSound := by
  have h : (runSteps (Store.step .default) .init (overwriteRun ++
      [.startCompact 4, .compactBatch 0 5 5 true, .startCompact 2])).any (fun s =>
        (s.step .default (.compactBatch 1 5 6 true)).any (fun s' =>
          decide (s'.db.getCompactRev < s.db.getCompactRev ∧ ¬ s'.WatermarkSound))) = true := by
    decide +kernel
  obtain ⟨s, hs, h⟩ := (Option.any_eq_true _ _).mp h
  obtain ⟨s', hs', h⟩ := exists_of_any_decide h
  exact ⟨s, s', hs, hs', h⟩

end KubeFdb
