import KubeFdb.Properties.Log

/-!
# database が表す record の列

`Db.Holds db recs` は、`byRevision` と `byKeyAndRevision` がどちらも record の列 `recs` を
表していることをいう。列は revision の昇順で、log はその展開、索引はその (key, rev) である。

書き込みの transaction と compaction の batch を、この列の上の操作として述べる。

* `getLast_eq` — `getLast` は列の中で鍵の最新の record を返す
* `get_eq` — 列の record は log から読める
-/

namespace KubeFdb

open Tuple

/-! ## revision -/

/-- commit が付ける revision。 -/
def IsRev (rev : Versionstamp) : Prop := ∃ n, 0 < n ∧ n < 2 ^ 63 ∧ rev = commitStamp n

theorem commitStamp_lt_iff {a b : Nat} : commitStamp a < commitStamp b ↔ a < b := by
  rw [Versionstamp.lt_iff]
  simp only [Versionstamp.toNat, commitStamp]
  omega

theorem commitStamp_le_iff {a b : Nat} : commitStamp a ≤ commitStamp b ↔ a ≤ b := by
  rw [← not_lt, commitStamp_lt_iff, not_lt]

theorem versionstampToInt64_commitStamp {n : Nat} (h : n < 2 ^ 63) :
    versionstampToInt64 (commitStamp n) = n := by
  unfold versionstampToInt64 toInt64 commitStamp
  rw [if_pos h]

theorem int64ToVersionstamp_of_nonneg {m : Int} (h0 : 0 ≤ m) (h : m < 2 ^ 63) :
    int64ToVersionstamp m = commitStamp m.toNat := by
  unfold int64ToVersionstamp toUint64 commitStamp
  rw [Int.emod_eq_of_lt h0 (by omega)]

namespace IsRev

variable {a b : Versionstamp}

theorem pos (h : IsRev a) : 0 < versionstampToInt64 a := by
  obtain ⟨n, h0, h1, rfl⟩ := h
  rw [versionstampToInt64_commitStamp h1]
  omega

theorem lt_max (h : IsRev a) : versionstampToInt64 a < 2 ^ 63 := by
  obtain ⟨n, h0, h1, rfl⟩ := h
  rw [versionstampToInt64_commitStamp h1]
  omega

theorem lt_iff (ha : IsRev a) (hb : IsRev b) :
    a < b ↔ versionstampToInt64 a < versionstampToInt64 b := by
  obtain ⟨n, -, hn, rfl⟩ := ha
  obtain ⟨m, -, hm, rfl⟩ := hb
  rw [commitStamp_lt_iff, versionstampToInt64_commitStamp hn, versionstampToInt64_commitStamp hm]
  omega

theorem le_iff (ha : IsRev a) (hb : IsRev b) :
    a ≤ b ↔ versionstampToInt64 a ≤ versionstampToInt64 b := by
  rw [← not_lt, hb.lt_iff ha, not_lt]

theorem eq_of_int64_eq (ha : IsRev a) (hb : IsRev b)
    (h : versionstampToInt64 a = versionstampToInt64 b) : a = b :=
  le_antisymm ((ha.le_iff hb).mpr h.le) ((hb.le_iff ha).mpr h.ge)

theorem le_int64_iff (ha : IsRev a) {m : Int} (h0 : 0 ≤ m) (h : m < 2 ^ 63) :
    a ≤ int64ToVersionstamp m ↔ versionstampToInt64 a ≤ m := by
  obtain ⟨n, -, hn, rfl⟩ := ha
  rw [int64ToVersionstamp_of_nonneg h0 h, commitStamp_le_iff, versionstampToInt64_commitStamp hn]
  omega

theorem int64_lt_iff (ha : IsRev a) {m : Int} (h0 : 0 ≤ m) (h : m < 2 ^ 63) :
    int64ToVersionstamp m < a ↔ m < versionstampToInt64 a := by
  rw [← not_le, ha.le_int64_iff h0 h, not_le]

/-- 負の int64 は、どの revision よりも大きい versionstamp になる。 -/
theorem le_of_negative (ha : IsRev a) {m : Int} (hneg : m < 0) (hmin : -2 ^ 63 ≤ m) :
    a ≤ int64ToVersionstamp m := by
  obtain ⟨n, -, hn, rfl⟩ := ha
  have hmod : m % 2 ^ 64 = m + 2 ^ 64 := by omega
  have huint : int64ToVersionstamp m = commitStamp (m + 2 ^ 64).toNat := by
    unfold int64ToVersionstamp toUint64 commitStamp
    rw [hmod]
  rw [huint, commitStamp_le_iff]
  omega

theorem ne_dummy (h : IsRev a) : a ≠ dummyVersionstamp := by
  obtain ⟨n, h0, -, rfl⟩ := h
  intro hc
  have := congrArg Versionstamp.txVersion hc
  simp only [commitStamp, dummyVersionstamp] at this
  omega

end IsRev

/-! ## 列を表す database -/

/-- record が索引に占める entry。 -/
def indexEntry (r : RevRecord) : IndexKey × IndexTuple :=
  (indexKey r.key r.rev, ByKeyAndRevision.recordToTuple r.record)

/-- 索引から読んだ record。値は索引にない。 -/
def RevRecord.indexed (r : RevRecord) : RevRecord :=
  { r with record := { r.record with value := [], latestForKey := false } }

@[simp] theorem parseKV_indexEntry (r : RevRecord) :
    ByKeyAndRevision.parseKV (indexEntry r) = r.indexed := rfl

/-- 保存された record がいつも満たすこと。 -/
structure RevRecord.Wf (r : RevRecord) : Prop where
  rev : IsRev r.rev
  size : r.record.valueSize = r.record.value.length
  bound : r.record.value.length ≤ maxRecordSize
  /-- `LatestForKey` は走査のあいだだけ立つ。 -/
  unmarked : r.record.latestForKey = false

/-- record の revision の番号。 -/
abbrev RevRecord.revision (r : RevRecord) : Int := versionstampToInt64 r.rev

theorem RevRecord.Wf.int64_lt_iff {r : RevRecord} (h : r.Wf) {m : Int} (h0 : 0 ≤ m)
    (hm : m < 2 ^ 63) : int64ToVersionstamp m < r.rev ↔ m < r.revision :=
  h.rev.int64_lt_iff h0 hm

/-- log と索引がどちらも record の列 `recs` を表すこと。 -/
structure Db.Holds (db : Db) (recs : List RevRecord) : Prop where
  sorted : SortedBy RevRecord.rev recs
  log : db.byRevision.entries = recs.flatMap logEntries
  index : ∀ e, e ∈ db.byKeyAndRevision.entries ↔ ∃ r ∈ recs, indexEntry r = e
  wf : ∀ r ∈ recs, r.Wf

/-- 列の revision が最新の revision を超えないこと。 -/
structure Db.Bounded (cfg : Config) (db : Db) (recs : List RevRecord) : Prop where
  le : ∀ r ∈ recs, versionstampToInt64 r.rev ≤ db.getLatestRev cfg
  pos : 0 < db.getLatestRev cfg
  lt : db.getLatestRev cfg < 2 ^ 63

theorem Db.empty_holds : Db.empty.Holds [] where
  sorted := SortedBy.nil
  log := rfl
  index := fun e => by simp [Db.empty, OrdMap.empty]
  wf := fun r hr => absurd hr List.not_mem_nil

theorem Db.empty_bounded (cfg : Config) : Db.empty.Bounded cfg [] where
  le := fun r hr => absurd hr List.not_mem_nil
  pos := by
    unfold Db.getLatestRev
    split <;> decide
  lt := by
    unfold Db.getLatestRev
    split <;> decide

variable {cfg : Config} {db : Db} {recs : List RevRecord}

/-- revision の昇順は、番号の昇順でもある。 -/
theorem sorted_revision (hs : SortedBy RevRecord.rev recs) (hw : ∀ r ∈ recs, r.Wf) :
    SortedBy RevRecord.revision recs :=
  hs.imp_of_mem fun ha hb hab => ((hw _ ha).rev.lt_iff (hw _ hb).rev).mp hab

/-- log と索引が同じなら、表す列も同じである。 -/
theorem Db.Holds.congr {db' : Db} (h : db.Holds recs) (hr : db'.byRevision = db.byRevision)
    (hi : db'.byKeyAndRevision = db.byKeyAndRevision) : db'.Holds recs where
  sorted := h.sorted
  log := by rw [hr]; exact h.log
  index := fun e => by rw [hi]; exact h.index e
  wf := h.wf

def RevRecord.live (r : RevRecord) : Bool := !r.record.isDelete

/-- `listKeyValue` が返す値。 -/
def kvOf (cfg : Config) (r : RevRecord) : KeyValue := (revRecordToEvent cfg r).kv

theorem kvOf_stored (cfg : Config) (r : RevRecord) : kvOf cfg r.stored = kvOf cfg r := rfl

/-- `getLast` は列の中で鍵の最新の record を返す。 -/
theorem getLast_eq (h : db.Holds recs) (key : Key) :
    db.getLast key = (newest RevRecord.key recs key).map RevRecord.indexed := by
  have hs : SortedBy Prod.fst
      (db.byKeyAndRevision.entries.filter (fun e => decide (e.1.key = key))) :=
    db.byKeyAndRevision.sorted.filter _
  unfold Db.getLast
  cases hn : newest RevRecord.key recs key with
  | none =>
    rw [List.getLast?_eq_none_iff.mpr, Option.map_none, Option.map_none]
    refine List.filter_eq_nil_iff.mpr (fun e he => ?_)
    obtain ⟨r, hr, rfl⟩ := (h.index e).mp he
    rw [decide_eq_true_eq]
    exact newest_eq_none_iff.mp hn r hr
  | some r =>
    obtain ⟨hr, hk, hmax⟩ := (newest_eq_some_iff h.sorted).mp hn
    rw [(hs.getLast?_eq_some_iff (a := indexEntry r)).mpr, Option.map_some, Option.map_some,
      parseKV_indexEntry]
    refine ⟨List.mem_filter.mpr ⟨(h.index _).mpr ⟨r, hr, rfl⟩, decide_eq_true hk⟩, ?_⟩
    intro e he
    obtain ⟨he, hek⟩ := List.mem_filter.mp he
    obtain ⟨r', hr', rfl⟩ := (h.index e).mp he
    have hk' : r'.key = key := of_decide_eq_true hek
    exact Prod.Lex.le_iff.mpr (Or.inr ⟨hk'.trans hk.symm, hmax r' hr' hk'⟩)

/-- `getLast` が `r` の revision を返すことは、`r` が鍵の最新であることと同じである。 -/
theorem getLast_rev_iff (h : db.Holds recs) {r : RevRecord} (hr : r ∈ recs) :
    (∀ last ∈ db.getLast r.key, last.rev = r.rev) ↔ newest RevRecord.key recs r.key = some r := by
  obtain ⟨last, hl⟩ := exists_newest RevRecord.key hr rfl
  rw [getLast_eq h, hl]
  constructor
  · intro hall
    rw [h.sorted.eq_of_index_eq (newest_mem hl).1 hr (hall last.indexed rfl)]
  · intro heq x hx
    rw [← Option.some.inj hx, ← Option.some.inj heq]
    rfl

/-- 索引の entry についての条件は、列の record についての条件である。 -/
theorem Db.Holds.forall_index (h : db.Holds recs) {P : IndexKey × IndexTuple → Prop} :
    (∀ e ∈ db.byKeyAndRevision.entries, P e) ↔ ∀ r ∈ recs, P (indexEntry r) := by
  constructor
  · intro hall r hr
    exact hall _ ((h.index _).mpr ⟨r, hr, rfl⟩)
  · intro hall e he
    obtain ⟨r, hr, rfl⟩ := (h.index e).mp he
    exact hall r hr

/-- 列の record は log から読める。 -/
theorem get_eq (h : db.Holds recs) {r : RevRecord} (hr : r ∈ recs) :
    ByRevision.get db.byRevision r.rev = .ok (some r.stored.record) := by
  unfold ByRevision.get
  rw [ByRevision.get_of_mem h.sorted h.log hr (h.wf r hr).size]
  rfl

/-! ## entry から record へ -/

/-- log の header は列の record のものである。 -/
theorem header_mem (h : db.Holds recs) {rev : Versionstamp} {t : RevTuple}
    (hm : (headerKey rev, RevValue.header t) ∈ db.byRevision.entries) :
    ∃ r ∈ recs, r.rev = rev ∧ t = ByRevision.recordToTuple r.record := by
  rw [h.log] at hm
  obtain ⟨r, hr, he⟩ := List.mem_flatMap.mp hm
  refine ⟨r, hr, (logEntries_rev he).symm, ?_⟩
  rcases List.mem_cons.mp he with he | he
  · exact RevValue.header.inj (congrArg Prod.snd he)
  · obtain ⟨c, -, hc⟩ := List.mem_map.mp he
    cases congrArg Prod.snd hc

theorem header_mem_of (h : db.Holds recs) {r : RevRecord} (hr : r ∈ recs) :
    (headerKey r.rev, RevValue.header (ByRevision.recordToTuple r.record))
      ∈ db.byRevision.entries := by
  rw [h.log]
  exact List.mem_flatMap.mpr ⟨r, hr, List.mem_cons_self⟩

theorem index_mem (h : db.Holds recs) {key : Key} {rev : Versionstamp} {t : IndexTuple}
    (hm : (indexKey key rev, t) ∈ db.byKeyAndRevision.entries) :
    ∃ r ∈ recs, r.rev = rev ∧ r.key = key ∧ t = ByKeyAndRevision.recordToTuple r.record := by
  obtain ⟨r, hr, he⟩ := (h.index _).mp hm
  exact ⟨r, hr, congrArg (fun e : IndexKey × IndexTuple => e.1.rev) he,
    congrArg (fun e : IndexKey × IndexTuple => e.1.key) he, (congrArg Prod.snd he).symm⟩

/-- revision `rev` の record が log に残っていること。 -/
def Db.Logged (db : Db) (rev : Versionstamp) : Prop :=
  ∃ t, (headerKey rev, RevValue.header t) ∈ db.byRevision.entries

instance (db : Db) (rev : Versionstamp) : Decidable (db.Logged rev) :=
  decidable_of_iff (∃ e ∈ db.byRevision.entries, ∃ t ∈ e.2.header?, e = (headerKey rev, .header t))
    (by
      constructor
      · rintro ⟨e, he, t, -, rfl⟩
        exact ⟨t, he⟩
      · rintro ⟨t, ht⟩
        exact ⟨_, ht, t, rfl, rfl⟩)

/-- log に残っている revision は、列の record の revision である。 -/
theorem Db.Holds.logged_iff (h : db.Holds recs) {rev : Versionstamp} :
    db.Logged rev ↔ ∃ r ∈ recs, r.rev = rev := by
  constructor
  · rintro ⟨t, ht⟩
    obtain ⟨r, hr, hrev, -⟩ := header_mem h ht
    exact ⟨r, hr, hrev⟩
  · rintro ⟨r, hr, rfl⟩
    exact ⟨_, header_mem_of h hr⟩

end KubeFdb
