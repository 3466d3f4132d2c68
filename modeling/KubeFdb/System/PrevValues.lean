import KubeFdb.Properties.After
import KubeFdb.Properties.Scan
import KubeFdb.System.Store

/-!
# event の `PrevKV`

`afterCollector` は、record の `PrevRevision` の record が log に残っていれば、それを `PrevKV` に入れる。

* tombstone の上の作成は `PrevRevision` に tombstone の revision を書く。tombstone が残っているあいだ、
  作り直しの event は消えた値を `PrevKV` に持つ（`prevKV_truthful_iff`）
* compaction は、書き換えられた record を、書き換えが `endRev` より後でも消す。書き換えの event は
  `PrevKV` を失う（`prevKV_present_iff`）
-/

namespace KubeFdb

open Tuple

variable {cfg : Config} {s s' : Store} {db : Db} {recs recs' : List RevRecord} {r : RevRecord}
  {a : StoreLabel} {e : Event}

theorem eventIn_prevKV (cfg : Config) (hw : ∀ p ∈ recs, p.Wf) (r : RevRecord) :
    (eventIn cfg recs r).prevKV = (atRev recs r.record.prevRevision).map (kvOf cfg) := by
  unfold eventIn
  split
  · rfl
  · next hd =>
    -- dummy の revision を持つ record はない
    have hd : r.record.prevRevision = dummyVersionstamp := not_not.mp hd
    rw [hd, atRev_of_not_mem fun p hp => (hw p hp).rev.ne_dummy]
    simp [revRecordToEvent, hd]

theorem atRev_mem {rev : Versionstamp} {p : RevRecord} (h : atRev recs rev = some p) :
    p ∈ recs ∧ p.rev = rev :=
  ⟨List.mem_of_find?_eq_some h, by simpa using List.find?_some h⟩

/-! ## PrevKV の値 -/

/-- 鍵のいまの値。最新の record が tombstone なら、値はない。 -/
def Db.visible (db : Db) (key : Key) : Option KeyValue :=
  match db.getLast key with
  | none => none
  | some last =>
    if last.record.isDelete then none
    else
      match ByRevision.get db.byRevision last.rev with
      | .ok (some record) => some (RevRecord.keyValue ⟨last.rev, record⟩)
      | _ => none

theorem Db.visible_eq (h : db.Holds recs) (key : Key) :
    db.visible key = ((newest RevRecord.key recs key).filter RevRecord.live).map RevRecord.keyValue := by
  unfold Db.visible
  rw [getLast_eq h]
  cases hn : newest RevRecord.key recs key with
  | none => rfl
  | some last =>
    have hget : ByRevision.get db.byRevision last.indexed.rev = .ok (some last.stored.record) :=
      get_eq h (newest_mem hn).1
    cases hd : last.record.isDelete with
    | true => simp [RevRecord.indexed, RevRecord.live, hd]
    | false =>
      simp only [Option.map_some, hget]
      simp [RevRecord.indexed, RevRecord.live, hd, RevRecord.keyValue, RevRecord.stored,
        RevRecord.getCreateRevision]

/-- event の `PrevKV` が、event の直前の store `db` での鍵の値であること。作成の event にはない。 -/
structure PrevTruthful (db : Db) (e : Event) : Prop where
  visible : ∀ kv, e.prevKV = some kv → db.visible e.kv.key = some kv
  create : e.create = true → e.prevKV = none

/-- 更新と削除は、鍵のいまの値の record を `PrevRevision` に書く。 -/
theorem WriteOp.Writes.prev_visible {op : WriteOp} {record : Record} {size : Int} (h : db.Holds recs)
    (hw : op.Writes (newest RevRecord.key recs op.key) record size) (hc : record.isCreate = false) :
    ∃ last ∈ recs, record.prevRevision = last.rev ∧ last.record.isDelete = false ∧
      db.visible op.key = some last.keyValue := by
  have hvis := Db.visible_eq h op.key
  generalize hn : newest RevRecord.key recs op.key = newest_ at hw hvis
  cases hw with
  | createNew key value lease => cases hc
  | createOver key value lease last hd => cases hc
  | update key value revision lease last hd hr =>
    exact ⟨last, (newest_mem hn).1, rfl, hd, by rw [hvis]; simp [RevRecord.live, hd]⟩
  | delete key revision last hd hr =>
    exact ⟨last, (newest_mem hn).1, rfl, hd, by rw [hvis]; simp [RevRecord.live, hd]⟩

/-- 書かれた record の event の `PrevKV`。`db` は書く前の、`db'` は読むときの database である。 -/
theorem prevTruthful_iff {op : WriteOp} {record : Record} {size : Int} {uuid : UUID} {db' : Db}
    {hist : List RevRecord} (h : db.Holds recs) (h' : db'.Holds recs')
    (hs : SortedBy RevRecord.rev hist) (hsub : ∀ p ∈ recs, p ∈ hist) (hsub' : ∀ p ∈ recs', p ∈ hist)
    (hw : op.Writes (newest RevRecord.key recs op.key) record size)
    (hr : r.record = { record with writeUUID := uuid }) :
    PrevTruthful db (eventIn cfg recs' r) ↔
      ¬ (r.record.isCreate = true ∧ db'.Logged r.record.prevRevision) := by
  have hprev := eventIn_prevKV cfg h'.wf r
  rw [h'.logged_iff]
  cases hc : r.record.isCreate with
  | true =>
    constructor
    · -- 残っている tombstone は `PrevKV` に入る
      rintro ⟨-, hnone⟩ ⟨-, p, hp, hrev⟩
      rw [hprev, ← hrev, atRev_of_mem h'.sorted hp] at hnone
      exact absurd (hnone (by rw [eventIn_create, hc])) (by simp)
    · intro hno
      have hnone : (eventIn cfg recs' r).prevKV = none := by
        rw [hprev, atRev_of_not_mem fun p hp hrev => hno ⟨rfl, p, hp, hrev⟩]
        rfl
      exact ⟨fun kv hkv => absurd (hnone.symm.trans hkv) (by simp), fun _ => hnone⟩
  | false =>
    refine iff_of_true ⟨fun kv hkv => ?_, fun hcr => ?_⟩ (fun hcr => absurd hcr.1 (by decide))
    · obtain ⟨last, hlast, hrev, hd, hvis⟩ := hw.prev_visible h (by rw [hr] at hc; exact hc)
      obtain ⟨p, hp, rfl⟩ := Option.map_eq_some_iff.mp (hprev.symm.trans hkv)
      obtain ⟨hpm, hprev⟩ := atRev_mem hp
      -- 読むときに残っている record は、書いたときに見えた record である
      have hpl : p = last := hs.eq_of_index_eq (hsub' p hpm) (hsub last hlast)
        (by rw [hprev, hr]; exact hrev)
      rw [eventIn_key, RevRecord.key, hr, show ({ record with writeUUID := uuid } : Record).key
        = op.key from hw.key_eq, hvis, hpl, kvOf_of_live cfg hd]
    · rw [eventIn_create, hc] at hcr
      cases hcr

/-- commit された record には、それを書いた手がある。 -/
theorem Store.exists_commit {as : List StoreLabel}
    (hrun : runSteps (Store.step cfg) .init as = some s) (hr : r ∈ s.committed) :
    ∃ bs a cs s₁ s₂ recs₁, as = bs ++ a :: cs ∧ runSteps (Store.step cfg) .init bs = some s₁ ∧
      s₁.step cfg a = some s₂ ∧ runSteps (Store.step cfg) s₂ cs = some s ∧ s₁.Inv cfg recs₁ ∧
      s₂.committed = s₁.committed ++ [r] ∧
      ∃ (op : WriteOp) (record : Record) (size : Int) (uuid : UUID),
        op.Writes (newest RevRecord.key recs₁ op.key) record size ∧
        r.record = { record with writeUUID := uuid } := by
  obtain ⟨bs, a, cs, s₁, s₂, has, hb, hstep, hc, hn, hq⟩ :=
    runSteps_turn (Q := fun t => r ∈ t.committed) hrun (by simp [Store.init]) hr
  obtain ⟨recs₁, hinv, -⟩ := (Store.init_inv cfg).run hb
  refine ⟨bs, a, cs, s₁, s₂, recs₁, has, hb, hstep, hc, hinv, ?_⟩
  obtain ⟨recs₂, he, -⟩ := Store.inv_step hinv hstep
  cases he with
  | idle _ ha v hv hv63 calls hcalls => exact absurd hq hn
  | compacted i n v known endRev c c' db' begin_ hcan hi hrun hb hbatch heq => exact absurd hq hn
  | wrote op lastWriteUUID uuid v record size hcan ht hw =>
    obtain rfl := List.mem_singleton.mp ((List.mem_append.mp hq).resolve_left hn)
    exact ⟨rfl, op, record, size, uuid, hw, append_record cfg v uuid record size s₁.db⟩

/-- run のどこで読まれる event も、それを書いた手がある。event の `PrevKV` が書く直前の鍵の値で、作成の event に
`PrevKV` がないのは、record が作成でないか、`PrevRevision` の record が読むときに残っていないときであり、
そのときに限る。 -/
theorem prevKV_truthful_iff (cfg : Config) {as : List StoreLabel} {s : Store}
    (hrun : runSteps (Store.step cfg) .init as = some s) {e : Event} (he : s.db.Reads cfg e) :
    ∃ bs a cs s₁ s₂ r, as = bs ++ a :: cs ∧ runSteps (Store.step cfg) .init bs = some s₁ ∧
      s₁.step cfg a = some s₂ ∧ s₂.committed = s₁.committed ++ [r] ∧
      e.kv.modRevision = r.revision ∧
      (PrevTruthful s₁.db e ↔
        ¬ (r.record.isCreate = true ∧ s.db.Logged r.record.prevRevision)) := by
  obtain ⟨recs, h, -⟩ := (Store.init_inv cfg).run hrun
  obtain ⟨r, hr, rfl⟩ := (Db.reads_iff h.tracks.holds).mp he
  obtain ⟨bs, a, cs, s₁, s₂, recs₁, has, hb, hstep, hc, h₁, hcom, op, record, size, uuid, hw, hrec⟩ :=
    Store.exists_commit hrun (h.tracks.sub r hr)
  obtain ⟨recs₂, -, h₂⟩ := Store.inv_step h₁ hstep
  obtain ⟨-, -, hpre⟩ := h₂.run hc
  refine ⟨bs, a, cs, s₁, s₂, r, has, hb, hstep, hcom, eventIn_modRevision, ?_⟩
  refine prevTruthful_iff h₁.tracks.holds h.tracks.holds h.tracks.sorted (fun p hp => ?_)
    h.tracks.sub hw hrec
  exact hpre.subset (hcom ▸ List.mem_append_left _ (h₁.tracks.sub p hp))

/-- 鍵を作って更新する。 -/
def updatedRun : List StoreLabel :=
  [.write (.create [47, 97] [1] 0) 0 1 2, .write (.update [47, 97] [2] 2 0) 0 2 3]

/-- 更新の event は、直前の値を `PrevKV` に持つ。 -/
theorem prevKV_truthful_of_updated :
    ∃ s e, runSteps (Store.step .default) .init updatedRun = some s ∧ s.db.Reads .default e ∧
      e.prevKV = some ⟨[47, 97], 2, 2, 0, [1]⟩ ∧
      ∃ bs a cs s₁ s₂ r, updatedRun = bs ++ a :: cs ∧
        runSteps (Store.step .default) .init bs = some s₁ ∧ s₁.step .default a = some s₂ ∧
        s₂.committed = s₁.committed ++ [r] ∧ e.kv.modRevision = r.revision ∧
        (PrevTruthful s₁.db e ↔
          ¬ (r.record.isCreate = true ∧ s.db.Logged r.record.prevRevision)) := by
  have h : (runSteps (Store.step .default) .init updatedRun).any (fun s =>
      (afterBatch .default 2 (fun _ => true) 5 s.db).2.1.any (fun e =>
        decide (e.prevKV = some ⟨[47, 97], 2, 2, 0, [1]⟩))) = true := by decide +kernel
  obtain ⟨s, hs, h⟩ := (Option.any_eq_true _ _).mp h
  obtain ⟨e, he, h⟩ := List.any_eq_true.mp h
  obtain ⟨recs, hinv, -⟩ := (Store.init_inv .default).run hs
  have hread := Db.reads_of_afterBatch hinv.tracks.holds he
  exact ⟨s, e, hs, hread, of_decide_eq_true h, prevKV_truthful_iff .default hs hread⟩

/-- 鍵を作り、消して、作り直す。 -/
def revivedRun : List StoreLabel :=
  [.write (.create [47, 97] [1] 0) 0 1 2, .write (.delete [47, 97] 2) 0 2 3,
    .write (.create [47, 97] [2] 0) 0 3 4]

/-- 作り直しの event は、直前に値がないのに、消えた値を `PrevKV` に持つ。 -/
theorem revived_create_has_prevKV :
    ∃ s₁ s e, runSteps (Store.step .default) .init (revivedRun.take 2) = some s₁ ∧
      runSteps (Store.step .default) .init revivedRun = some s ∧
      watch .default [47] 4 (fun _ => 5) s.db = .started [e] 4 ∧
      e.create = true ∧ e.prevKV = some ⟨[47, 97], 2, 3, 0, [1]⟩ ∧ s₁.db.visible [47, 97] = none ∧
      ¬ PrevTruthful s₁.db e := by
  have h : (runSteps (Store.step .default) .init (revivedRun.take 2)).any (fun s₁ =>
      (runSteps (Store.step .default) .init revivedRun).any (fun s =>
        decide (watch .default [47] 4 (fun _ => 5) s.db
          = .started [⟨true, false, ⟨[47, 97], 4, 4, 0, [2]⟩,
            some ⟨[47, 97], 2, 3, 0, [1]⟩⟩] 4 ∧ s₁.db.visible [47, 97] = none))) = true := by
    decide +kernel
  obtain ⟨s₁, hs₁, h⟩ := (Option.any_eq_true _ _).mp h
  obtain ⟨s, hs, hw, hvis⟩ := exists_of_any_decide h
  exact ⟨s₁, s, _, hs₁, hs, hw, rfl, rfl, hvis, fun ht => absurd (ht.create rfl) (by simp)⟩

/-! ## PrevKV の有無 -/

/-- log に残っている header。 -/
def Db.headers (db : Db) : List (Versionstamp × RevTuple) := db.byRevision.entries.filterMap headerOf

theorem Db.headers_eq (h : db.Holds recs) :
    db.headers = recs.map (fun r => (r.rev, ByRevision.recordToTuple r.record)) := by
  unfold Db.headers
  rw [h.log]
  clear h
  induction recs with
  | nil => rfl
  | cons r recs ih =>
    rw [List.flatMap_cons, List.filterMap_append, ih, logEntries, List.filterMap_cons_some
      (f := headerOf) (b := (r.rev, ByRevision.recordToTuple r.record)) rfl,
      filterMap_headerOf_chunks]
    rfl

/-- どの `Compact` の `endRev` よりも新しいこと。 -/
def Store.AboveCompacts (s : Store) (revision : Int) : Prop := ∀ c ∈ s.compacts, c.1 < revision

instance (s : Store) (revision : Int) : Decidable (s.AboveCompacts revision) :=
  inferInstanceAs (Decidable (∀ c ∈ s.compacts, _))

/-- どの `endRev` よりも新しい更新と削除の event が、`PrevKV` を持つこと。 -/
def Store.PrevPresent (cfg : Config) (s : Store) : Prop :=
  ∀ e, s.db.Reads cfg e → e.create = false → s.AboveCompacts e.kv.modRevision → e.prevKV ≠ none

/-- 手の後で `PrevPresent` が成り立つこと。 -/
def PrevPresentAfter (cfg : Config) (s : Store) (a : StoreLabel) : Prop :=
  ∀ s', s.step cfg a = some s' → s'.PrevPresent cfg

/-- compaction の batch の手の前の条件。どの `endRev` よりも新しい更新か削除の record で、batch の後も残るもの
について、その `PrevRevision` の record を batch が読まない。 -/
def SparesPrev (s : Store) : StoreLabel → Prop
  | .compactBatch i n _ _ => ∀ x ∈ s.compacts[i]?, ∀ h ∈ s.db.headers,
      h.2.isCreate = false → s.AboveCompacts (versionstampToInt64 h.1) →
      (h ∈ (unreadHeaders x.1 s.db x.2.beginKey).take (n + 1) →
        h.2.isDelete = false ∧ ∀ last ∈ s.db.getLast h.2.key, last.rev = h.1) →
      ∀ p ∈ (unreadHeaders x.1 s.db x.2.beginKey).take (n + 1), p.1 ≠ h.2.prevRevision
  | _ => True

instance (s : Store) : (a : StoreLabel) → Decidable (SparesPrev s a)
  | .compactBatch i n _ _ => inferInstanceAs (Decidable (∀ x ∈ s.compacts[i]?, ∀ h ∈ s.db.headers,
      _ → _ → (h ∈ (unreadHeaders x.1 s.db x.2.beginKey).take (n + 1) → _ ∧ _) → _))
  | .tick _ => .isTrue trivial
  | .write _ _ _ _ => .isTrue trivial
  | .startCompact _ => .isTrue trivial

/-- record の列の上で述べた `PrevPresent`。 -/
theorem Store.prevPresent_iff (h : s.Inv cfg recs) :
    s.PrevPresent cfg ↔ ∀ r ∈ recs, r.record.isCreate = false → s.AboveCompacts r.revision →
      ∃ p ∈ recs, p.rev = r.record.prevRevision := by
  have hh := h.tracks.holds
  have hsome : ∀ r : RevRecord, (eventIn cfg recs r).prevKV ≠ none ↔
      ∃ p ∈ recs, p.rev = r.record.prevRevision := by
    intro r
    rw [eventIn_prevKV cfg hh.wf]
    constructor
    · intro hne
      obtain ⟨p, hp⟩ := Option.ne_none_iff_exists'.mp (fun hc : atRev recs _ = none =>
        hne (by rw [hc]; rfl))
      exact ⟨p, atRev_mem hp⟩
    · rintro ⟨p, hp, hrev⟩
      rw [← hrev, atRev_of_mem hh.sorted hp]
      simp
  constructor
  · intro hpres r hr hc habove
    exact (hsome r).mp (hpres _ ((Db.reads_iff hh).mpr ⟨r, hr, rfl⟩) (by rw [eventIn_create, hc])
      (by rw [eventIn_modRevision]; exact habove))
  · intro hall e he hc habove
    obtain ⟨r, hr, rfl⟩ := (Db.reads_iff hh).mp he
    rw [eventIn_create] at hc
    rw [eventIn_modRevision] at habove
    exact (hsome r).mpr (hall r hr hc habove)

/-- batch の結果を記録しても、`endRev` は変わらない。 -/
theorem aboveCompacts_set {calls : List (Int × CompactCall)} {i : Nat} {endRev : Int}
    {c c' : CompactCall} (hi : calls[i]? = some (endRev, c)) {x : Int} :
    (∀ y ∈ calls.set i (endRev, c'), y.1 < x) ↔ ∀ y ∈ calls, y.1 < x := by
  have hmap : (calls.set i (endRev, c')).map Prod.fst = calls.map Prod.fst := by
    rw [List.map_set]
    obtain ⟨hlt, hget⟩ := List.getElem?_eq_some_iff.mp hi
    refine List.ext_getElem (by simp) fun j h1 h2 => ?_
    by_cases hij : i = j
    · subst hij
      simp [hget]
    · simp [hij]
  rw [← List.forall_mem_map (f := Prod.fst) (P := fun v => v < x), hmap, List.forall_mem_map]

/-- 列の上で述べた `SparesPrev`。 -/
theorem sparesPrev_iff (h : s.db.Holds recs) {i n v : Nat} {known : Bool} {endRev : Int}
    {c : CompactCall} {begin_ : Option Versionstamp} (hi : s.compacts[i]? = some (endRev, c))
    (hb : c.beginKey = begin_.map (chunkKey · maxInt64)) :
    SparesPrev s (.compactBatch i n v known) ↔
      ∀ r ∈ compactRecs recs (compactVisits recs begin_ endRev n), r.record.isCreate = false →
        s.AboveCompacts r.revision →
        ∀ p ∈ compactVisits recs begin_ endRev n, p.rev ≠ r.record.prevRevision := by
  have hvis : (unreadHeaders endRev s.db c.beginKey).take (n + 1)
      = (compactVisits recs begin_ endRev n).map
        (fun r => (r.rev, ByRevision.recordToTuple r.record)) := by
    rw [hb, unreadHeaders_eq h, ← List.map_take]
    rfl
  have hvm : ∀ p ∈ compactVisits recs begin_ endRev n, p ∈ recs := fun p hp =>
    (mem_compactTodo.mp (mem_of_mem_compactVisits hp)).1
  -- header が読まれるのは、record が読まれるときである
  have hmem : ∀ r ∈ recs, (r.rev, ByRevision.recordToTuple r.record)
      ∈ (unreadHeaders endRev s.db c.beginKey).take (n + 1) ↔
      r ∈ compactVisits recs begin_ endRev n := by
    intro r hr
    rw [hvis, List.mem_map]
    constructor
    · rintro ⟨p, hp, he⟩
      rw [← h.sorted.eq_of_index_eq (hvm p hp) hr (congrArg Prod.fst he)]
      exact hp
    · intro hr
      exact ⟨r, hr, rfl⟩
  simp only [SparesPrev, hi, Option.mem_def, Option.some.injEq, forall_eq', Db.headers_eq h,
    List.forall_mem_map]
  constructor
  · intro hall r hr hc habove p hp
    obtain ⟨hrm, hkeep⟩ := mem_compactRecs.mp hr
    refine hall r hrm hc habove (fun hv => ?_) (p.rev, ByRevision.recordToTuple p.record)
      ((hmem p (hvm p hp)).mpr hp)
    have hd : discards recs r = false :=
      Bool.eq_false_iff.mpr fun hd => hkeep ⟨(hmem r hrm).mp hv, hd⟩
    exact (discards_eq_false_iff h hrm).mp hd
  · intro hall r hrm hc habove hkeep x hx
    have hr : r ∈ compactRecs recs (compactVisits recs begin_ endRev n) := by
      refine mem_compactRecs.mpr ⟨hrm, fun ⟨hv, hd⟩ => ?_⟩
      have hnd := (discards_eq_false_iff h hrm).mpr (hkeep ((hmem r hrm).mpr hv))
      exact absurd (hnd.symm.trans hd) (by decide)
    rw [hvis] at hx
    obtain ⟨p, hp, rfl⟩ := List.mem_map.mp hx
    exact hall r hr hc habove p hp

/-- 更新と削除の record が、同じ鍵の古い record を `PrevRevision` に持つこと。 -/
def PrevLinked (hist : List RevRecord) : Prop :=
  ∀ r ∈ hist, r.record.isCreate = false →
    ∃ last ∈ hist, last.rev = r.record.prevRevision ∧ last.key = r.key ∧ last.rev < r.rev

theorem Store.Effect.prevLinked (h : s.Inv cfg recs) (hl : PrevLinked s.committed)
    (he : Store.Effect cfg s recs a s' recs') : PrevLinked s'.committed := by
  cases he with
  | idle _ ha v hv hv63 calls hcalls => exact hl
  | compacted i n v known endRev c c' db' begin_ hcan hi hrun hb hbatch heq => exact hl
  | wrote op lastWriteUUID uuid v record size hcan ht hw =>
    intro r hr hc
    rcases List.mem_append.mp hr with hr | hr
    · obtain ⟨last, hm, hlast⟩ := hl r hr hc
      exact ⟨last, List.mem_append_left _ hm, hlast⟩
    · obtain rfl := List.mem_singleton.mp hr
      -- 書いた record の `PrevRevision` は、書く前の鍵の最新の record である
      have hkey : (append cfg v uuid record size s.db).1.key = op.key := hw.key_eq
      generalize hn : newest RevRecord.key recs op.key = newest_ at hw
      have hlast : ∀ last, newest_ = some last → record.prevRevision = last.rev →
          ∃ l ∈ s.committed ++ [(append cfg v uuid record size s.db).1],
            l.rev = record.prevRevision ∧ l.key = (append cfg v uuid record size s.db).1.key ∧
              l.rev < (append cfg v uuid record size s.db).1.rev := by
        rintro last rfl hprev
        obtain ⟨hm, hk⟩ := newest_mem hn
        exact ⟨last, List.mem_append_left _ (h.tracks.sub last hm), hprev.symm, hk.trans hkey.symm,
          h.boundedRecs.lt_new h.tracks.holds hcan hm⟩
      cases hw with
      | createNew key value lease => cases hc
      | createOver key value lease last hd => cases hc
      | update key value revision lease last hd hr => exact hlast last rfl rfl
      | delete key revision last hd hr => exact hlast last rfl rfl

/-- 手の前の条件は、`PrevPresent` が保たれることと同値である。 -/
theorem sparesPrev_iff_kept (h : s.Inv cfg recs) (hl : PrevLinked s.committed)
    (hpres : s.PrevPresent cfg) (he : Store.Effect cfg s recs a s' recs') :
    SparesPrev s a ↔ s'.PrevPresent cfg := by
  rw [Store.prevPresent_iff (h.effect he)]
  rw [Store.prevPresent_iff h] at hpres
  cases he with
  | idle _ ha v hv hv63 calls hcalls =>
    have htrue : SparesPrev s a := by
      cases a with
      | compactBatch i n v known => exact absurd rfl (ha i n v known)
      | _ => trivial
    refine iff_of_true htrue fun r hr hc habove => hpres r hr hc fun x hx => habove x ?_
    rcases hcalls with rfl | ⟨-, endRev, -, rfl⟩
    · exact hx
    · exact List.mem_append_left _ hx
  | wrote op lastWriteUUID uuid v record size hcan ht hw =>
    refine iff_of_true trivial fun r hr hc habove => ?_
    rcases List.mem_append.mp hr with hr | hr
    · obtain ⟨p, hp, hrev⟩ := hpres r hr hc habove
      exact ⟨p, List.mem_append_left _ hp, hrev⟩
    · obtain rfl := List.mem_singleton.mp hr
      obtain ⟨last, hm, hrev, -⟩ := hw.prev_visible h.tracks.holds hc
      exact ⟨last, List.mem_append_left _ hm, hrev.symm⟩
  | compacted i n v known endRev c c' db' begin_ hcan hi hrun hb hbatch heq =>
    have habove_iff : ∀ x, (∀ y ∈ (if known then s.compacts.set i (endRev, c') else s.compacts),
        y.1 < x) ↔ s.AboveCompacts x := by
      intro x
      cases known with
      | true => exact aboveCompacts_set hi
      | false => exact Iff.rfl
    rw [sparesPrev_iff h.tracks.holds hi hb]
    refine forall₂_congr fun r hr => imp_congr_right fun hc => ?_
    obtain ⟨hrm, -⟩ := mem_compactRecs.mp hr
    refine Iff.trans (imp_congr_right fun habove => ⟨fun hspare => ?_, fun hkept q hq hrev => ?_⟩)
      (imp_congr_left (habove_iff r.revision).symm)
    · -- 読まれない record は消えない
      obtain ⟨p, hp, hrev⟩ := hpres r hrm hc habove
      exact ⟨p, mem_compactRecs.mpr ⟨hp, fun hv => hspare p hv.1 hrev⟩, hrev⟩
    · -- 読まれれば、`r` に書き換えられているので消える
      obtain ⟨p, hp, hprev⟩ := hkept
      obtain ⟨hpm, hkeep⟩ := mem_compactRecs.mp hp
      obtain rfl : q = p := h.tracks.holds.sorted.eq_of_index_eq
        (mem_compactTodo.mp (mem_of_mem_compactVisits hq)).1 hpm (hrev.trans hprev.symm)
      obtain ⟨last, hlm, hlrev, hlk, hlt⟩ := hl r (h.tracks.sub r hrm) hc
      obtain rfl : last = q :=
        h.tracks.sorted.eq_of_index_eq hlm (h.tracks.sub q hpm) (hlrev.trans hrev.symm)
      exact hkeep ⟨hq, discards_iff.mpr (Or.inl ⟨r, hrm, hlk.symm, hlt⟩)⟩

/-- run のどの手の後でも、どの `endRev` よりも新しい更新と削除の event が `PrevKV` を持つのは、どの compaction の
batch も、その後に残るそのような record の前の record を読まないときであり、そのときに限る。 -/
theorem prevKV_present_iff (cfg : Config) {as : List StoreLabel} {s : Store}
    (hrun : runSteps (Store.step cfg) .init as = some s) :
    StepsMeet (Store.step cfg) (PrevPresentAfter cfg) .init as ↔
      StepsMeet (Store.step cfg) SparesPrev .init as := by
  have hinit : Store.init.PrevPresent cfg :=
    (Store.prevPresent_iff (Store.init_inv cfg)).mpr fun r hr => absurd hr List.not_mem_nil
  have hlinked : PrevLinked Store.init.committed := fun r hr => absurd hr List.not_mem_nil
  refine (stepsMeet_congr (P := fun s => (∃ recs, s.Inv cfg recs) ∧ PrevLinked s.committed ∧
    s.PrevPresent cfg) ?_ ?_ ⟨⟨[], Store.init_inv cfg⟩, hlinked, hinit⟩ hrun).symm
  · rintro s a s' ⟨⟨recs, h⟩, hl, hpres⟩ hok hs
    obtain ⟨recs', he, h'⟩ := Store.inv_step h hs
    exact ⟨⟨recs', h'⟩, he.prevLinked h hl, (sparesPrev_iff_kept h hl hpres he).mp hok⟩
  · rintro s a s' ⟨⟨recs, h⟩, hl, hpres⟩ hs
    obtain ⟨recs', he, h'⟩ := Store.inv_step h hs
    rw [sparesPrev_iff_kept h hl hpres he]
    constructor
    · intro hkept s₁ hs₁
      obtain rfl : s' = s₁ := Option.some.inj (hs.symm.trans hs₁)
      exact hkept
    · intro hkept
      exact hkept s' hs

/-- 二つの更新の後で、古いほうの更新までを compaction する。読まれる record は `endRev` 以下の record に
書き換えられていて、その後の更新の前の record は読まれない。 -/
theorem prevKV_present_of_spared :
    StepsMeet (Store.step .default) (PrevPresentAfter .default) .init
      (updatedRun ++ [.write (.create [47, 98] [3] 0) 0 3 4, .startCompact 3,
        .compactBatch 0 5 5 true, .write (.update [47, 97] [4] 3 0) 0 4 6]) := by
  obtain ⟨s, hs⟩ : ∃ s, runSteps (Store.step .default) .init
      (updatedRun ++ [.write (.create [47, 98] [3] 0) 0 3 4, .startCompact 3,
        .compactBatch 0 5 5 true, .write (.update [47, 97] [4] 3 0) 0 4 6]) = some s :=
    Option.isSome_iff_exists.mp (by decide +kernel)
  exact (prevKV_present_iff .default hs).mpr (by decide +kernel)

/-- revision 3 の更新の後で `Compact(2)` を走らせると、更新の event は `PrevKV` を失う。 -/
theorem compacted_prevKV_missing :
    ∃ s e, runSteps (Store.step .default) .init
        (updatedRun ++ [.startCompact 2, .compactBatch 0 5 4 true]) = some s ∧
      watch .default [47] 3 (fun _ => 5) s.db = .started [e] 3 ∧
      e.create = false ∧ e.kv.modRevision = 3 ∧ s.compacts.map Prod.fst = [2] ∧ e.prevKV = none ∧
      ¬ s.PrevPresent .default := by
  have h : (runSteps (Store.step .default) .init
      (updatedRun ++ [.startCompact 2, .compactBatch 0 5 4 true])).any (fun s =>
        decide (s.compacts.map Prod.fst = [2] ∧
          (⟨false, false, ⟨[47, 97], 2, 3, 0, [2]⟩, none⟩ : Event)
            ∈ (afterBatch .default 2 (fun _ => true) 5 s.db).2.1 ∧
          watch .default [47] 3 (fun _ => 5) s.db
            = .started [⟨false, false, ⟨[47, 97], 2, 3, 0, [2]⟩, none⟩] 3)) = true := by
    decide +kernel
  obtain ⟨s, hs, hc, he, hw⟩ := exists_of_any_decide h
  obtain ⟨recs, hinv, -⟩ := (Store.init_inv .default).run hs
  refine ⟨s, _, hs, hw, rfl, rfl, hc, rfl, fun hpres => ?_⟩
  refine hpres _ (Db.reads_of_afterBatch hinv.tracks.holds he) rfl (fun c hcm => ?_) rfl
  have hmem : c.1 ∈ s.compacts.map Prod.fst := List.mem_map.mpr ⟨c, hcm, rfl⟩
  rw [hc] at hmem
  rw [List.mem_singleton.mp hmem]
  decide

end KubeFdb
