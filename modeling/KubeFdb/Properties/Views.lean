import KubeFdb.Properties.Listing

/-!
# 見える record

revision `R` の `List`、`Get`、`Count` の答えは、`R` 以下の record のうち鍵ごとの最新で、
tombstone でないもの（`LiveAt`）だけで決まる。二つの database の答えが同じであることは、
`LiveAt` が同じ record を選ぶことと同値である（`sameAnswers_iff`）。
-/

namespace KubeFdb

open Tuple

/-- `r` が revision `R` で見える record であること。0 は最新を指す。 -/
structure LiveAt (R : Int) (recs : List RevRecord) (r : RevRecord) : Prop where
  mem : r ∈ recs
  window : pinWindow R r.rev = true
  live : r.live = true
  newest : ∀ r' ∈ recs, pinWindow R r'.rev = true → r'.key = r.key → r'.rev ≤ r.rev

/-- revision `R` の query の答えが二つの database で同じであること。答えの revision は比べない。
`limit` を超えて返った record も比べない。 -/
structure SameAnswers (cfg : Config) (R : Int) (db db' : Db) : Prop where
  lists : ∀ prefix_ startKey limit keysOnly splits splits',
    (list cfg prefix_ startKey limit R keysOnly splits db).map (fun x => within limit 0 x.2)
      = (list cfg prefix_ startKey limit R keysOnly splits' db').map (fun x => within limit 0 x.2)
  gets : ∀ key rangeEnd keysOnly splits splits',
    (get cfg key rangeEnd R keysOnly splits db).map Prod.snd
      = (get cfg key rangeEnd R keysOnly splits' db').map Prod.snd
  counts : ∀ prefix_ startKey splits splits',
    (countScan cfg prefix_ startKey R splits db).map Prod.snd
      = (countScan cfg prefix_ startKey R splits' db').map Prod.snd

variable {cfg : Config} {R : Int} {db db' : Db} {recs recs' hist all all' : List RevRecord}
  {prefix_ startKey : Key}

theorem RangeRecs.mem_chosenOf (h : RangeRecs recs prefix_ startKey all) {r : RevRecord} :
    r ∈ chosenOf (pinWindow R) all ↔ LiveAt R recs r ∧ inListRange prefix_ startKey r.key = true := by
  unfold chosenOf
  rw [GroupScan.mem_chosen, h.mem_iff]
  constructor
  · rintro ⟨⟨hr, hin⟩, hw, hl, hmax⟩
    refine ⟨⟨hr, hw, hl, fun r' hr' hw' hk => ?_⟩, hin⟩
    exact hmax r' ((h.mem_iff r').mpr ⟨hr', hk ▸ hin⟩) hw' hk
  · rintro ⟨⟨hr, hw, hl, hmax⟩, hin⟩
    exact ⟨⟨hr, hin⟩, hw, hl, fun r' hr' => hmax r' ((h.mem_iff r').mp hr').1⟩

/-- 見える record が同じなら、範囲から選ばれる列も同じである。 -/
theorem RangeRecs.chosenOf_eq (h : RangeRecs recs prefix_ startKey all)
    (h' : RangeRecs recs' prefix_ startKey all') (hlive : ∀ r, LiveAt R recs r ↔ LiveAt R recs' r) :
    chosenOf (pinWindow R) all = chosenOf (pinWindow R) all' :=
  GroupScan.chosen_ext h.ordered h'.ordered (fun r => by
    show r ∈ chosenOf _ _ ↔ r ∈ chosenOf _ _
    rw [h.mem_chosenOf, h'.mem_chosenOf, hlive])

/-- 鍵そのものを prefix とする範囲は、その鍵を含む。 -/
theorem inListRange_self (key : Key) : inListRange key key key = true := by
  unfold inListRange
  split
  · simp
  · simp

theorem listRange_self (key : Key) : ∃ range, listRange key key = .ok range := by
  unfold listRange
  split
  · exact ⟨_, rfl⟩
  · rw [if_neg (not_not.mpr rfl)]
    exact ⟨_, rfl⟩

/-- pin した revision が読めること。 -/
structure Readable (cfg : Config) (R : Int) (db : Db) : Prop where
  notCompacted : ¬ PinCompacted R db
  notFuture : R ≤ db.getLatestRev cfg

theorem Readable.pinAnswer_eq {α : Type} (h : Readable cfg R db) (x : α) :
    pinAnswer cfg db R x = .ok (db.getLatestRev cfg, x) := by
  unfold pinAnswer
  rw [if_neg h.notCompacted, if_neg (not_lt.mpr h.notFuture)]

theorem pinAnswer_of_compacted {α : Type} (h : PinCompacted R db) (x : α) :
    pinAnswer cfg db R x = .error .compacted := by
  unfold pinAnswer
  rw [if_pos h]

/-- 最新の record はいつでも読める。 -/
theorem readable_zero (h : db.Bounded cfg recs) : Readable cfg 0 db :=
  ⟨fun hc => absurd hc.1 (lt_irrefl 0), h.pos.le⟩

/-! ## 索引の record -/

/-- 索引の record を索引の順に並べたもの。 -/
def Db.indexRecords (db : Db) : List RevRecord :=
  db.byKeyAndRevision.entries.map ByKeyAndRevision.parseKV

/-- 走査の範囲の record を索引の順に並べたもの。 -/
def Db.rangeRecords (db : Db) (prefix_ startKey : Key) : List RevRecord :=
  db.indexRecords.filter (fun r => inListRange prefix_ startKey r.key)

theorem pinWindow_zero : pinWindow 0 = fun _ => true := by
  funext rev
  simp [pinWindow]

theorem chosenOf_map_indexed (w : Versionstamp → Bool) (l : List RevRecord) :
    chosenOf w (l.map RevRecord.indexed) = (chosenOf w l).map RevRecord.indexed :=
  GroupScan.chosen_map _ (fun _ => rfl) (fun _ => rfl) (fun _ => rfl) (fun _ => rfl)

theorem below_map_indexed (w : Versionstamp → Bool) (l : List RevRecord) (key : Key) :
    GroupScan.below RevRecord.key RevRecord.rev (fun r => w r.rev) RevRecord.live
        (l.map RevRecord.indexed) key
      = GroupScan.below RevRecord.key RevRecord.rev (fun r => w r.rev) RevRecord.live l key := by
  show ((chosenOf w (l.map RevRecord.indexed)).filter _).length = _
  rw [chosenOf_map_indexed, List.filter_map, List.length_map]
  rfl

/-- 走査の範囲の record を、列の record で書く。 -/
theorem rangeRecords_eq (h : db.Holds recs) (prefix_ startKey : Key) :
    ∃ all, RangeRecs recs prefix_ startKey all ∧
      db.rangeRecords prefix_ startKey = all.map RevRecord.indexed := by
  obtain ⟨all, heq, hord, hmem⟩ := exists_indexed h (fun k => inListRange prefix_ startKey k.key)
  refine ⟨all, ⟨hord, hmem⟩, ?_⟩
  unfold Db.rangeRecords Db.indexRecords
  rw [List.filter_map]
  have hfilter : db.byKeyAndRevision.entries.filter
      ((fun r : RevRecord => inListRange prefix_ startKey r.key) ∘ ByKeyAndRevision.parseKV)
        = all.map indexEntry := heq
  rw [hfilter, List.map_map]
  rfl

theorem mem_indexRecords (h : db.Holds recs) {r : RevRecord} :
    r ∈ db.indexRecords ↔ ∃ r' ∈ recs, r'.indexed = r := by
  unfold Db.indexRecords
  rw [List.mem_map]
  constructor
  · rintro ⟨e, he, rfl⟩
    obtain ⟨r', hr', rfl⟩ := (h.index e).mp he
    exact ⟨r', hr', rfl⟩
  · rintro ⟨r', hr', rfl⟩
    exact ⟨indexEntry r', (h.index _).mpr ⟨r', hr', rfl⟩, rfl⟩

/-- revision `R` で生きている鍵。 -/
def Db.keysAt (db : Db) (R : Int) : List Key :=
  (chosenOf (pinWindow R) db.indexRecords).map RevRecord.key

theorem mem_keysAt (h : db.Holds recs) {k : Key} :
    k ∈ db.keysAt R ↔ ∃ r, LiveAt R recs r ∧ r.key = k := by
  unfold Db.keysAt chosenOf
  rw [List.mem_map]
  constructor
  · rintro ⟨r, hr, rfl⟩
    obtain ⟨hm, hw, hl, hmax⟩ := GroupScan.mem_chosen.mp hr
    obtain ⟨r', hr', rfl⟩ := (mem_indexRecords h).mp hm
    exact ⟨r', ⟨hr', hw, hl, fun x hx hxw hk =>
      hmax x.indexed ((mem_indexRecords h).mpr ⟨x, hx, rfl⟩) hxw hk⟩, rfl⟩
  · rintro ⟨r, hl, rfl⟩
    refine ⟨r.indexed, GroupScan.mem_chosen.mpr ⟨(mem_indexRecords h).mpr ⟨r, hl.mem, rfl⟩,
      hl.window, hl.live, fun x hx hxw hk => ?_⟩, rfl⟩
    obtain ⟨x', hx', rfl⟩ := (mem_indexRecords h).mp hx
    exact hl.newest x' hx' hxw hk

/-! ## 答えの比較 -/

/-- 見える record が同じで、どちらも読めるなら、答えは同じである。 -/
theorem sameAnswers_of_liveAt (ht : db.Tracks recs hist) (ht' : db'.Tracks recs' hist)
    (hb : db.Bounded cfg recs) (hb' : db'.Bounded cfg recs') (hr : Readable cfg R db)
    (hr' : Readable cfg R db') (hlive : ∀ r, LiveAt R recs r ↔ LiveAt R recs' r) :
    SameAnswers cfg R db db' where
  lists prefix_ startKey limit keysOnly splits splits' := by
    cases hrange : listRange prefix_ startKey with
    | error e => simp only [list, listWithCollector, hrange]
    | ok range =>
      obtain ⟨all, hall⟩ := exists_rangeRecs ht.holds prefix_ startKey
      obtain ⟨all', hall'⟩ := exists_rangeRecs ht'.holds prefix_ startKey
      cases hl : capacityFits limit with
      | false => rw [list_of_not_fits hl, list_of_not_fits hl]
      | true =>
        obtain ⟨kvs, hkvs, hw⟩ := list_within ht hb hrange hall hl R keysOnly splits
        obtain ⟨kvs', hkvs', hw'⟩ := list_within ht' hb' hrange hall' hl R keysOnly splits'
        rw [hkvs, hkvs', hr.pinAnswer_eq, hr'.pinAnswer_eq]
        show Except.ok (within limit 0 kvs) = Except.ok (within limit 0 kvs')
        rw [hw.resolve_left hr.notCompacted, hw'.resolve_left hr'.notCompacted,
          hall.chosenOf_eq hall' hlive]
  gets key rangeEnd keysOnly splits splits' := by
    by_cases hend : rangeEnd = []
    · subst hend
      obtain ⟨range, hrange⟩ := listRange_self key
      obtain ⟨all, hall⟩ := exists_rangeRecs ht.holds key key
      obtain ⟨all', hall'⟩ := exists_rangeRecs ht'.holds key key
      rw [get_eq_head ht hb hrange hall, get_eq_head ht' hb' hrange hall', hr.pinAnswer_eq,
        hr'.pinAnswer_eq, hall.chosenOf_eq hall' hlive]
      rfl
    · simp only [get, if_pos hend]
  counts prefix_ startKey splits splits' := by
    cases hrange : listRange prefix_ startKey with
    | error e => simp only [countScan, listWithCollector, hrange]
    | ok range =>
      obtain ⟨all, hall⟩ := exists_rangeRecs ht.holds prefix_ startKey
      obtain ⟨all', hall'⟩ := exists_rangeRecs ht'.holds prefix_ startKey
      rw [countScan_eq ht hb hrange hall, countScan_eq ht' hb' hrange hall', hr.pinAnswer_eq,
        hr'.pinAnswer_eq, hall.chosenOf_eq hall' hlive]
      rfl

/-- 一覧に現れる鍵と revision から、record が決まる。 -/
theorem eq_of_kvOf_eq (ht : db.Tracks recs hist) {r r' : RevRecord} (hr : r ∈ hist) (hr' : r' ∈ hist)
    (h : kvOf cfg (r.listed true) = kvOf cfg (r'.listed true)) : r = r' := by
  have hrev : versionstampToInt64 r.rev = versionstampToInt64 r'.rev :=
    congrArg KeyValue.modRevision h
  exact ht.sorted.eq_of_index_eq hr hr' ((ht.wf r hr).rev.eq_of_int64_eq (ht.wf r' hr').rev hrev)

/-- 答えが同じなら、片方で見える record はもう片方でも見える。 -/
theorem liveAt_of_lists (ht : db.Tracks recs hist) (ht' : db'.Tracks recs' hist)
    (hb : db.Bounded cfg recs) (hb' : db'.Bounded cfg recs') (hr : Readable cfg R db)
    (hr' : Readable cfg R db')
    (hlists : ∀ key, (list cfg key key 0 R true (fun _ => 0) db).map (fun x => within 0 0 x.2)
      = (list cfg key key 0 R true (fun _ => 0) db').map (fun x => within 0 0 x.2))
    {r : RevRecord} (hlive : LiveAt R recs r) : LiveAt R recs' r := by
  obtain ⟨range, hrange⟩ := listRange_self r.key
  obtain ⟨all, hall⟩ := exists_rangeRecs ht.holds r.key r.key
  obtain ⟨all', hall'⟩ := exists_rangeRecs ht'.holds r.key r.key
  have heq := hlists r.key
  obtain ⟨kvs, hkvs, hw⟩ := list_within ht hb hrange hall capacityFits_zero R true (fun _ => 0)
  obtain ⟨kvs', hkvs', hw'⟩ := list_within ht' hb' hrange hall' capacityFits_zero R true (fun _ => 0)
  rw [hkvs, hkvs', hr.pinAnswer_eq, hr'.pinAnswer_eq] at heq
  have hkv : kvs = kvs' := Except.ok.inj heq
  have hw : kvs = _ := hw.resolve_left hr.notCompacted
  have hw' : kvs' = _ := hw'.resolve_left hr'.notCompacted
  have hmem : kvOf cfg (r.listed true) ∈ kvs := by
    rw [hw]
    exact List.mem_map.mpr ⟨r, hall.mem_chosenOf.mpr ⟨hlive, inListRange_self r.key⟩, rfl⟩
  rw [hkv, hw'] at hmem
  obtain ⟨r', hr₁, he⟩ := List.mem_map.mp hmem
  have hlive' := (hall'.mem_chosenOf.mp hr₁).1
  rw [← eq_of_kvOf_eq ht (ht'.sub r' hlive'.mem) (ht.sub r hlive.mem) he]
  exact hlive'

/-- 読める database の答えが、もう一つの database でも同じになる条件。 -/
theorem sameAnswers_iff (ht : db.Tracks recs hist) (ht' : db'.Tracks recs' hist)
    (hb : db.Bounded cfg recs) (hb' : db'.Bounded cfg recs') (hr : Readable cfg R db)
    (hf : R ≤ db'.getLatestRev cfg) :
    SameAnswers cfg R db db' ↔
      ¬ PinCompacted R db' ∧ ∀ r, LiveAt R recs r ↔ LiveAt R recs' r := by
  constructor
  · intro h
    have hnc : ¬ PinCompacted R db' := by
      intro hc
      obtain ⟨range, hrange⟩ := listRange_self []
      obtain ⟨all, hall⟩ := exists_rangeRecs ht.holds [] []
      obtain ⟨all', hall'⟩ := exists_rangeRecs ht'.holds [] []
      have hcount := h.counts [] [] (fun _ => 0) (fun _ => 0)
      rw [countScan_eq ht hb hrange hall, countScan_eq ht' hb' hrange hall', hr.pinAnswer_eq,
        pinAnswer_of_compacted hc] at hcount
      cases hcount
    have hr' : Readable cfg R db' := ⟨hnc, hf⟩
    refine ⟨hnc, fun r => ⟨fun hl => ?_, fun hl => ?_⟩⟩
    · exact liveAt_of_lists ht ht' hb hb' hr hr' (fun key => h.lists key key 0 true _ _) hl
    · exact liveAt_of_lists ht' ht hb' hb hr' hr
        (fun key => (h.lists key key 0 true _ _).symm) hl
  · rintro ⟨hnc, hlive⟩
    exact sameAnswers_of_liveAt ht ht' hb hb' hr ⟨hnc, hf⟩ hlive

end KubeFdb
