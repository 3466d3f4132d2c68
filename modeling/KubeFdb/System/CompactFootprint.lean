import KubeFdb.Properties.Compaction
import KubeFdb.System.Store

/-!
# compaction が触れるもの

`Compact(endRev)` は、`endRev` より新しい record にも、鍵の最新で生きている record にも触れず、
どう batch に分かれても同じ database を残すはずである（`Footprint`）。

負の `endRev` は、`int64ToVersionstamp` で大きな versionstamp になる。範囲はすべての record を含むので、
`endRev` より新しい record も消える。触れないのは、`endRev` が負でないか、消すものが一つもないときである
（`compact_footprint_iff`）。
-/

namespace KubeFdb

open Tuple

/-- `Compact(endRev)` が、消してよいもののほかに触れないこと。`db` は前の database である。 -/
structure Footprint (cfg : Config) (endRev : Int) (splits : Nat → Nat) (db : Db) : Prop where
  done : (compact cfg endRev splits db).1 = .done
  /-- `endRev` より新しい record は、索引にも log にも残る。 -/
  index : ∀ e ∈ db.byKeyAndRevision.entries, endRev < versionstampToInt64 e.1.rev →
    e ∈ (compact cfg endRev splits db).2.byKeyAndRevision.entries
  log : ∀ e ∈ db.byRevision.entries, endRev < versionstampToInt64 e.1.rev →
    e ∈ (compact cfg endRev splits db).2.byRevision.entries
  /-- 鍵の最新で生きている record は、索引にも log にも残る。 -/
  newest : ∀ key, ∀ last ∈ db.getLast key, last.record.isDelete = false →
    (compact cfg endRev splits db).2.getLast key = some last ∧
      ByRevision.get (compact cfg endRev splits db).2.byRevision last.rev
        = ByRevision.get db.byRevision last.rev
  current : (compact cfg endRev splits db).2.byKeyCurrent = db.byKeyCurrent
  watch : (compact cfg endRev splits db).2.watch = db.watch
  /-- 残る record も watermark も、batch の切れ目によらない。 -/
  split : ∀ splits', (compact cfg endRev splits' db).2 = (compact cfg endRev splits db).2

/-- どの record も、生きていて鍵の最新であること。 -/
def Db.AllCurrent (db : Db) : Prop :=
  ∀ e ∈ db.byKeyAndRevision.entries,
    e.2.isDelete = false ∧ ∀ last ∈ db.getLast e.1.key, last.rev = e.1.rev

instance (db : Db) : Decidable db.AllCurrent :=
  inferInstanceAs (Decidable (∀ e ∈ db.byKeyAndRevision.entries,
    e.2.isDelete = false ∧ ∀ last ∈ db.getLast e.1.key, last.rev = e.1.rev))

variable {cfg : Config} {db db' : Db} {recs : List RevRecord} {endRev : Int}

/-! ## 読まれる record -/

theorem allCurrent_iff (h : db.Holds recs) :
    db.AllCurrent ↔ ∀ r ∈ recs, discards recs r = false := by
  unfold Db.AllCurrent
  rw [h.forall_index]
  exact forall₂_congr fun r hr => (discards_eq_false_iff h hr).symm

/-- 消えるのは、読まれる古い record と tombstone だけである。負でない `endRev` では、どれも `endRev` 以下で
ある。 -/
theorem mem_compactRecs_of_above (hw : ∀ r ∈ recs, r.Wf) (hmax : endRev < 2 ^ 63)
    (hcond : 0 ≤ endRev ∨ ∀ r ∈ recs, discards recs r = false) {r : RevRecord} (hr : r ∈ recs)
    (hlt : endRev < r.revision) : r ∈ compactRecs recs (compactTodo recs none endRev) := by
  refine mem_compactRecs.mpr ⟨hr, ?_⟩
  rintro ⟨hread, hdis⟩
  rcases hcond with h0 | hnone
  · have hle := ((hw r hr).rev.le_int64_iff h0 hmax).mp (mem_compactTodo.mp hread).2.2
    exact absurd hle (not_le.mpr hlt)
  · exact absurd (hnone r hr) (by rw [hdis]; decide)

/-! ## 残る record -/

/-- 残る record の entry は、索引にも log にも残る。 -/
theorem Compacted.entries_kept (h : db.Holds recs) {visited : List RevRecord}
    (hc : Compacted recs visited db db')
    (hkept : ∀ r ∈ recs, endRev < r.revision → r ∈ compactRecs recs visited) :
    (∀ e ∈ db.byKeyAndRevision.entries, endRev < versionstampToInt64 e.1.rev →
      e ∈ db'.byKeyAndRevision.entries) ∧
    ∀ e ∈ db.byRevision.entries, endRev < versionstampToInt64 e.1.rev →
      e ∈ db'.byRevision.entries := by
  constructor
  · intro e he hlt
    obtain ⟨r, hr, rfl⟩ := (h.index e).mp he
    exact (hc.holds.index _).mpr ⟨r, hkept r hr hlt, rfl⟩
  · intro e he hlt
    rw [h.log] at he
    obtain ⟨r, hr, he⟩ := List.mem_flatMap.mp he
    rw [show e.1.rev = r.rev from logEntries_rev he] at hlt
    rw [hc.holds.log]
    exact List.mem_flatMap.mpr ⟨r, hkept r hr hlt, he⟩

/-- 鍵の最新で生きている record は残り、鍵の最新であり続ける。 -/
theorem Compacted.newest_kept (h : db.Holds recs) {visited : List RevRecord}
    (hc : Compacted recs visited db db') {key : Key} {last : RevRecord}
    (hl : db.getLast key = some last) (hd : last.record.isDelete = false) :
    db'.getLast key = some last ∧
      ByRevision.get db'.byRevision last.rev = ByRevision.get db.byRevision last.rev := by
  rw [getLast_eq h] at hl
  obtain ⟨r, hn, rfl⟩ := Option.map_eq_some_iff.mp hl
  obtain ⟨hr, hk, hmax⟩ := (newest_eq_some_iff h.sorted).mp hn
  have hkept : r ∈ compactRecs recs visited :=
    mem_compactRecs_of_newest h.sorted (fun r hr => hr) hn hd hr
  have hn' : newest RevRecord.key (compactRecs recs visited) key = some r :=
    (newest_eq_some_iff hc.holds.sorted).mpr
      ⟨hkept, hk, fun r' hr' => hmax r' (mem_compactRecs.mp hr').1⟩
  refine ⟨by rw [getLast_eq hc.holds, hn', Option.map_some], ?_⟩
  exact (get_eq hc.holds hkept).trans (get_eq h hr).symm

/-! ## Compact の前後 -/

theorem footprint_of_sequential (hm : cfg.useSequentialId = true) (endRev : Int)
    (splits : Nat → Nat) (db : Db) : Footprint cfg endRev splits db where
  done := by rw [compact_of_sequential hm]
  index e he _ := by rw [compact_of_sequential hm]; exact he
  log e he _ := by rw [compact_of_sequential hm]; exact he
  newest key last hl _ := by rw [compact_of_sequential hm]; exact ⟨hl, rfl⟩
  current := by rw [compact_of_sequential hm]
  watch := by rw [compact_of_sequential hm]
  split splits' := by rw [compact_of_sequential hm, compact_of_sequential hm]

/-- 負の `endRev` ではすべての record が読まれ、すべてが `endRev` より新しい。 -/
theorem Footprint.discards_eq_false (h : db.Holds recs) (hm : cfg.useSequentialId = false)
    (hmin : -2 ^ 63 ≤ endRev) (hneg : endRev < 0) {splits : Nat → Nat}
    (hf : Footprint cfg endRev splits db) : ∀ r ∈ recs, discards recs r = false := by
  intro r hr
  obtain ⟨db', hcompact, hc⟩ := compact_eq cfg h hm endRev splits
  have hkept := hf.index (indexEntry r) ((h.index _).mpr ⟨r, hr, rfl⟩)
    (hneg.trans (h.wf r hr).rev.pos)
  rw [hcompact] at hkept
  obtain ⟨r', hr', he⟩ := (hc.holds.index _).mp hkept
  have hrev : r'.rev = r.rev := congrArg (fun e : IndexKey × IndexTuple => e.1.rev) he
  obtain ⟨hr'm, hnot⟩ := mem_compactRecs.mp hr'
  obtain rfl : r' = r := h.sorted.eq_of_index_eq hr'm hr hrev
  have hread : r' ∈ compactTodo recs none endRev := mem_compactTodo.mpr
    ⟨hr, by simp, (h.wf r' hr).rev.le_of_negative hneg hmin⟩
  exact Bool.not_eq_true _ ▸ fun hd => hnot ⟨hread, hd⟩

theorem footprint_of_kept (h : db.Holds recs) (hm : cfg.useSequentialId = false)
    (hmax : endRev < 2 ^ 63) (splits : Nat → Nat)
    (hcond : 0 ≤ endRev ∨ ∀ r ∈ recs, discards recs r = false) :
    Footprint cfg endRev splits db := by
  obtain ⟨db', hcompact, hc⟩ := compact_eq cfg h hm endRev splits
  obtain ⟨hindex, hlog⟩ := hc.entries_kept h
    fun r hr hlt => mem_compactRecs_of_above h.wf hmax hcond hr hlt
  constructor <;> rw [hcompact]
  · exact hindex
  · exact hlog
  · exact fun key last hl hd => hc.newest_kept h hl hd
  · exact hc.byKeyCurrent
  · exact hc.watch
  · intro splits'
    obtain ⟨db'', hcompact', hc'⟩ := compact_eq cfg h hm endRev splits'
    rw [hcompact']
    exact hc'.unique hc

/-- 到達できる store で、`Compact(endRev)` が `endRev` より新しい record と鍵の最新で生きている record に
触れず、batch の切れ目によらないのは、連番の設定か、`endRev` が負でないか、どの record も生きていて鍵の
最新であるときであり、そのときに限る。 -/
theorem compact_footprint_iff (cfg : Config) {s : Store} (hs : s.Reachable cfg) {endRev : Int}
    (hmin : -2 ^ 63 ≤ endRev) (hmax : endRev < 2 ^ 63) (splits : Nat → Nat) :
    Footprint cfg endRev splits s.db ↔
      (cfg.useSequentialId = true ∨ 0 ≤ endRev ∨ s.db.AllCurrent) := by
  obtain ⟨recs, hi⟩ := hs.inv
  have h := hi.tracks.holds
  cases hm : cfg.useSequentialId with
  | true =>
    exact iff_of_true (footprint_of_sequential hm endRev splits s.db) (Or.inl rfl)
  | false =>
    rw [allCurrent_iff h, or_iff_right Bool.false_ne_true]
    constructor
    · intro hf
      exact or_iff_not_imp_left.mpr fun hneg => hf.discards_eq_false h hm hmin (not_le.mp hneg)
    · intro hcond
      exact footprint_of_kept h hm hmax splits hcond

/-- 更新と削除のある store で `Compact(3)` を走らせる。 -/
theorem compact_footprint_of_rewritten :
    ∃ s, runSteps (Store.step .default) .init
        [.write (.create [97] [1] 0) 0 1 2, .write (.update [97] [2] 2 0) 0 2 3,
          .write (.delete [97] 3) 0 3 4] = some s ∧
      Footprint .default 3 (fun _ => 0) s.db := by
  obtain ⟨s, hs⟩ := Option.isSome_iff_exists.mp (show (runSteps (Store.step .default) .init
    [.write (.create [97] [1] 0) 0 1 2, .write (.update [97] [2] 2 0) 0 2 3,
      .write (.delete [97] 3) 0 3 4]).isSome = true by decide +kernel)
  exact ⟨s, hs, (compact_footprint_iff .default ⟨_, hs⟩ (by decide) (by decide) (fun _ => 0)).mpr
    (Or.inr (Or.inl (by decide)))⟩

/-- `Compact(-1)` は revision 2 の record を消す。 -/
theorem compact_negative_removes :
    ∃ s, runSteps (Store.step .default) .init
        [.write (.create [97] [1] 0) 0 1 2, .write (.update [97] [2] 2 0) 0 2 3] = some s ∧
      (compact .default (-1) (fun _ => 5) s.db).1 = .done ∧
      s.db.Logged (commitStamp 2) ∧
      ¬ (compact .default (-1) (fun _ => 5) s.db).2.Logged (commitStamp 2) ∧
      ¬ Footprint .default (-1) (fun _ => 5) s.db := by
  have h : (runSteps (Store.step .default) .init
      [.write (.create [97] [1] 0) 0 1 2, .write (.update [97] [2] 2 0) 0 2 3]).any (fun s =>
      decide ((compact .default (-1) (fun _ => 5) s.db).1 = .done ∧ s.db.Logged (commitStamp 2) ∧
        ¬ (compact .default (-1) (fun _ => 5) s.db).2.Logged (commitStamp 2))) = true := by
    decide +kernel
  obtain ⟨s, hs, hdone, hin, hout⟩ := exists_of_any_decide h
  refine ⟨s, hs, hdone, hin, hout, fun hf => ?_⟩
  obtain ⟨t, ht⟩ := hin
  exact hout ⟨t, hf.log _ ht (show (-1 : Int) < versionstampToInt64 (commitStamp 2) by decide)⟩

end KubeFdb
