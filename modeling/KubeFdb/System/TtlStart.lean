import KubeFdb.Driver.Ttl
import KubeFdb.Properties.Ongoing
import KubeFdb.Properties.Views
import KubeFdb.System.Watermark

/-!
# ttlEvents の一覧

`ttlEvents` は、`"/"` の下の鍵を一頁 `ttlPageSize` 個ずつ読み、lease を持つものを送ってから `Watch` を
始める。頁の loop は `revRecords` が空になると終わり、そのとき `err` を見ない。したがって、二頁目以降の
読み出しが record を一つも返さずに失敗すると、残りの頁を読まずに `Watch` に進む。

一頁の読み出しは `Db.ttlPageAfter` の record を返し（`ttlPage_read`）、loop はその頁の列 `Db.ttlPages` を
送る（`ttlFrom_watching_iff`）。見落としがないのは、失敗の前に読んだ頁に、lease を持つ鍵の最新の record が
すべて載るときである（`ttlEvents_finds_leases_iff`）。
-/

namespace KubeFdb

open Tuple

/-- `startKey` の後から読む一頁の record。生きた鍵を `ttlPageSize` 個まで読み、その次の鍵については、
最も古い record だけが、生きていれば載る。 -/
def Db.ttlPageAfter (db : Db) (startKey : Key) : List RevRecord :=
  GroupScan.stopped RevRecord.key RevRecord.rev (fun _ => true) RevRecord.live ttlPageSize
    (db.rangeRecords [0x2F] startKey)

/-- `startKey` の後から続けて読む、多くとも `n` 頁の列。次の頁は最後の record の鍵の後から読み、
空の頁で終わる。 -/
def Db.ttlPages (db : Db) : (n : Nat) → (startKey : Key) → List (List RevRecord)
  | 0, _ => []
  | n + 1, startKey =>
    match (db.ttlPageAfter startKey).getLast? with
    | none => []
    | some last => db.ttlPageAfter startKey :: db.ttlPages n last.key

def PageOutcome.isRead : PageOutcome → Bool
  | .read _ => true
  | .failed _ => false

/-- 最初の失敗の前に読んだ頁の数。 -/
def pagesRead (outcomes : List PageOutcome) : Nat := (outcomes.takeWhile PageOutcome.isRead).length

/-- 頁の loop が終わって `Watch` に進むこと。空の頁を読んだか、読み出しが record を返さずに失敗した。 -/
def Db.ListingEnds (db : Db) (startKey : Key) (outcomes : List PageOutcome) : Prop :=
  (db.ttlPages (pagesRead outcomes) startKey).length < pagesRead outcomes ∨
    outcomes[pagesRead outcomes]? = some (.failed [])

/-- revision `rev` での鍵の最新の record `r` が生きていて、lease を持つこと。 -/
structure Db.LeasedAt (db : Db) (rev : Int) (r : RevRecord) : Prop where
  chosen : r ∈ chosenOf (upTo rev) db.indexRecords
  under : doesEventHavePrefix r.key [0x2F] = true
  lease : 0 < r.record.lease

/-- `Watch` に進んだ `ttlEvents` が、lease を持つ鍵を見落としていないこと。送ったか、`Watch` が送る。 -/
def FindsLeases (cfg : Config) (db : Db) (outcomes : List PageOutcome) : Prop :=
  ∀ rev sent, ttlEvents cfg db outcomes = .watching rev sent → ∀ r, db.LeasedAt rev r →
    revRecordToEvent cfg r ∈ sent ∨ watchMinRevision rev < versionstampToInt64 r.rev

variable {cfg : Config} {db : Db} {recs hist : List RevRecord} {r : RevRecord}
  {startKey : Key} {outcomes : List PageOutcome}

/-! ## 索引の record -/

theorem inListRange_of_slash {key : Key} (h : doesEventHavePrefix key [0x2F] = true) :
    inListRange [0x2F] [] key = true := by
  obtain ⟨rest, rfl⟩ : ∃ rest, key = 0x2F :: rest := by
    rcases Bool.or_eq_true_iff.mp h with h | h
    · obtain ⟨rest, hrest⟩ := List.isPrefixOf_iff_prefix.mp (Bool.and_eq_true_iff.mp h).2
      exact ⟨rest, hrest.symm⟩
    · exact ⟨[], of_decide_eq_true h⟩
  simp only [inListRange, hasSlashSuffix]
  simp
  rfl

/-- 頁が走査する record の順。 -/
theorem rangeRecords_ordered (h : db.Holds recs) (prefix_ startKey : Key) :
    IndexOrdered (db.rangeRecords prefix_ startKey) := by
  obtain ⟨all, hall, heq⟩ := rangeRecords_eq h prefix_ startKey
  rw [heq]
  exact SortedBy.map_iff.mpr hall.ordered

/-! ## 一頁 -/

theorem keysSpec_wants_iff {k : Nat} : (keysSpec ttlPageSize).wants k = true ↔ k < ttlPageSize := by
  simp [keysSpec, ttlPageSize]

theorem keysSpec_ready (inRange : Key → Bool) (w : Versionstamp → Bool) (limit : Int) :
    AlwaysReady (keysSpec limit) db recs hist inRange w :=
  ⟨fun _ _ => trivial, fun _ _ => trivial, fun _ _ _ => trivial⟩

theorem listResult_ok {σ : Type} {maxRevision rev : Int} {call : ListCall σ} {inner : σ}
    (h : listResult maxRevision call = .ok (rev, inner)) : inner = call.collector.inner := by
  unfold listResult at h
  split at h
  · cases h
  · split at h
    · cases h
    · exact (Prod.mk.inj (Except.ok.inj h)).2.symm

theorem ttlPage_of_ok {startKey : Key} {maxRevision rev : Int} {splits : Nat → Nat}
    {c : ListCollector}
    (h : listWithCollector cfg listProcessor (newListCollector ttlPageSize true) [0x2F] startKey
      maxRevision splits db = .ok (rev, c)) :
    ttlPage cfg db startKey maxRevision (.read splits) = (rev, false, c.records) := by
  unfold listWithCollector at h
  unfold ttlPage
  cases hr : listRange [0x2F] startKey with
  | error e =>
    rw [hr] at h
    cases h
  | ok range =>
    simp only [hr] at h ⊢
    simp only [h, listResult_ok h]

theorem exists_slash_listRange (startKey : Key) :
    ∃ range, listRange [0x2F] startKey = .ok range := by
  unfold listRange
  rw [if_pos (by decide)]
  exact ⟨_, rfl⟩

/-- 窓にすべての record が入る revision を指した一頁の読み出し。鍵だけを読むので失敗しない。 -/
theorem ttlPage_picks (htr : db.Tracks recs hist) (hb : db.Bounded cfg recs) {maxRevision : Int}
    (hnp : ¬ PinCompacted maxRevision db) (hle : maxRevision ≤ db.getLatestRev cfg)
    (hwin : ∀ r ∈ recs, pinWindow maxRevision r.rev = true) (startKey : Key) (splits : Nat → Nat) :
    ∃ page : Picks, ttlPage cfg db startKey maxRevision (.read splits)
        = (db.getLatestRev cfg, false, page.map mark) ∧
      (page.map Prod.fst).map RevRecord.indexed = db.ttlPageAfter startKey := by
  obtain ⟨range, hr⟩ := exists_slash_listRange startKey
  obtain ⟨all, hall, hrange⟩ := rangeRecords_eq htr.holds [0x2F] startKey
  obtain ⟨c, hc, hrec⟩ := listWithCollector_eq htr hb hr hall
    (keysSpec_ready _ (pinWindow maxRevision) ttlPageSize)
    (fun hin _ _ hend => by
      simp only [listProcessor, ListCollector.endBatch, hin.1.2.1, if_true] at hend
      cases (Prod.mk.inj hend).2)
    (show (keysSpec ttlPageSize).Received (newListCollector ttlPageSize true) [] from ⟨rfl, rfl, rfl⟩)
    splits
  unfold pinAnswer at hc
  rw [if_neg hnp, if_neg (not_lt.mpr hle)] at hc
  have h0 : (keysSpec ttlPageSize).wants 0 = true := keysSpec_wants_iff.mpr (by decide)
  have hpage : ∀ {l : List RevRecord}, chosenOf (pinWindow maxRevision) l
      = GroupScan.stopped RevRecord.key RevRecord.rev (fun r => pinWindow maxRevision r.rev)
          RevRecord.live ttlPageSize all →
      ((pickedOf (pinWindow maxRevision) l).map Prod.fst).map RevRecord.indexed
        = db.ttlPageAfter startKey := by
    intro l hl
    rw [pickedOf_fst, hl]
    unfold Db.ttlPageAfter
    rw [hrange, GroupScan.stopped_map RevRecord.indexed (fun _ => rfl) (fun _ => rfl) (fun _ => rfl)
      (fun _ => rfl), GroupScan.stopped_window_congr fun r hr => hwin r ((hall.mem_iff r).mp hr).1]
  rcases hrec with hpin | ⟨⟨-, -, hrec⟩, hwants⟩ | ⟨m, hw, ⟨-, -, hrec⟩, hwants⟩
  · exact absurd hpin hnp
  · exact ⟨_, hrec ▸ ttlPage_of_ok hc, hpage (GroupScan.chosen_eq_stopped_of_read hall.ordered
      fun j hj => keysSpec_wants_iff.mp (hwants h0 j hj))⟩
  · have hfull : ttlPageSize ≤ (scanOf (pinWindow maxRevision) (all.take m)).emitted.length := by
      by_contra hlt
      rw [keysSpec_wants_iff.mpr (not_le.mp hlt)] at hw
      cases hw
    exact ⟨_, hrec ▸ ttlPage_of_ok hc, hpage (GroupScan.chosen_take_eq_stopped (by decide)
      hall.ordered hfull fun j hj => keysSpec_wants_iff.mp (hwants h0 j hj))⟩

/-- **一頁の読み出し。** 最初の頁は revision を指さず、後の頁は最初に読んだ revision を指す。どちらも
`ttlPageAfter` の record を返す。loop が見るのは、その鍵と lease の event だけである。 -/
theorem ttlPage_read (htr : db.Tracks recs hist) (hb : db.Bounded cfg recs)
    (hc : versionstampToInt64 db.getCompactRev ≤ db.getLatestRev cfg) {maxRevision : Int}
    (hrev : maxRevision = 0 ∨ maxRevision = db.getLatestRev cfg) (startKey : Key)
    (splits : Nat → Nat) :
    ∃ records, ttlPage cfg db startKey maxRevision (.read splits)
        = (db.getLatestRev cfg, false, records) ∧
      records.map RevRecord.key = (db.ttlPageAfter startKey).map RevRecord.key ∧
      leasedEvents cfg records = leasedEvents cfg (db.ttlPageAfter startKey) := by
  have hpicks : ∃ page : Picks, ttlPage cfg db startKey maxRevision (.read splits)
      = (db.getLatestRev cfg, false, page.map mark) ∧
        (page.map Prod.fst).map RevRecord.indexed = db.ttlPageAfter startKey := by
    rcases hrev with rfl | rfl
    · exact ttlPage_picks htr hb (fun h => absurd h.1 (lt_irrefl 0)) hb.pos.le
        (fun r _ => by rw [pinWindow_zero]) startKey splits
    · exact ttlPage_picks htr hb (fun h => absurd h.2 (not_lt.mpr hc)) le_rfl
        (fun r hr => decide_eq_true (Or.inr (hb.le r hr))) startKey splits
  obtain ⟨page, hpage, heq⟩ := hpicks
  refine ⟨_, hpage, ?_, ?_⟩
  · rw [← heq, List.map_map, List.map_map, List.map_map]
    rfl
  · rw [← heq, List.map_map]
    unfold leasedEvents
    rw [List.filter_map, List.filter_map, List.map_map, List.map_map]
    rfl

/-! ## 頁の loop -/

/-- `startKey` の後の頁から先の loop。 -/
def ttlFrom (cfg : Config) (db : Db) (rev : Int) (startKey : Key) (maxRevision : Int)
    (sent : List Event) : List PageOutcome → TtlEvents
  | [] => .listing sent
  | o :: os =>
    let page := ttlPage cfg db startKey maxRevision o
    ttlLoop cfg db rev page.2.1 page.2.2 sent os

theorem ttlFrom_cons (rev maxRevision : Int) (sent : List Event) (o : PageOutcome) :
    ttlFrom cfg db rev startKey maxRevision sent (o :: outcomes)
      = ttlLoop cfg db rev (ttlPage cfg db startKey maxRevision o).2.1
          (ttlPage cfg db startKey maxRevision o).2.2 sent outcomes := rfl

theorem ttlLoop_nil (rev : Int) (err : Bool) (sent : List Event) :
    ttlLoop cfg db rev err [] sent outcomes = .watching rev sent := by
  simp only [ttlLoop]

theorem ttlLoop_err (rev : Int) (r : RevRecord) (rs : List RevRecord) (sent : List Event) :
    ttlLoop cfg db rev true (r :: rs) sent outcomes = .closed sent := by
  simp only [ttlLoop]

/-- 手元に頁があれば、それを送って次の頁に進む。 -/
theorem ttlLoop_cons {rev : Int} {sent : List Event} {records : List RevRecord} {last : Key}
    (h : (records.map RevRecord.key).getLast? = some last) :
    ttlLoop cfg db rev false records sent outcomes
      = ttlFrom cfg db rev last rev (sent ++ leasedEvents cfg records) outcomes := by
  cases records with
  | nil => cases h
  | cons r rs =>
    have hlast : ((r :: rs).getLast (List.cons_ne_nil r rs)).key = last := by
      rw [List.getLast?_map, List.getLast?_eq_some_getLast (List.cons_ne_nil r rs)] at h
      exact Option.some.inj h
    rw [← hlast]
    cases outcomes <;> rfl

theorem ttlPages_succ_of_none {n : Nat} (h : (db.ttlPageAfter startKey).getLast? = none) :
    db.ttlPages (n + 1) startKey = [] := by
  unfold Db.ttlPages
  rw [h]

theorem ttlPages_succ_of_some {n : Nat} {last : RevRecord}
    (h : (db.ttlPageAfter startKey).getLast? = some last) :
    db.ttlPages (n + 1) startKey = db.ttlPageAfter startKey :: db.ttlPages n last.key := by
  conv_lhs => unfold Db.ttlPages
  rw [h]

theorem listingEnds_read_of_some {splits : Nat → Nat} {last : RevRecord}
    (h : (db.ttlPageAfter startKey).getLast? = some last) :
    db.ListingEnds startKey (.read splits :: outcomes) ↔ db.ListingEnds last.key outcomes := by
  show (db.ttlPages (pagesRead outcomes + 1) startKey).length < pagesRead outcomes + 1 ∨ _ ↔ _
  rw [ttlPages_succ_of_some h, List.length_cons, Nat.succ_lt_succ_iff]
  rfl

theorem leasedEvents_append (l l' : List RevRecord) :
    leasedEvents cfg (l ++ l') = leasedEvents cfg l ++ leasedEvents cfg l' := by
  unfold leasedEvents
  rw [List.filter_append, List.map_append]

/-- 読んだ頁が空なら、loop は終わる。 -/
theorem ttlFrom_read_of_none (htr : db.Tracks recs hist) (hb : db.Bounded cfg recs)
    (hc : versionstampToInt64 db.getCompactRev ≤ db.getLatestRev cfg) {maxRevision : Int}
    (hrev : maxRevision = 0 ∨ maxRevision = db.getLatestRev cfg) (splits : Nat → Nat)
    (sent : List Event) (hlast : (db.ttlPageAfter startKey).getLast? = none) :
    ttlFrom cfg db (db.getLatestRev cfg) startKey maxRevision sent (.read splits :: outcomes)
      = .watching (db.getLatestRev cfg) sent := by
  obtain ⟨records, hpage, hkeys, -⟩ := ttlPage_read htr hb hc hrev startKey splits
  have hnil : records = [] := by
    rw [List.getLast?_eq_none_iff.mp hlast] at hkeys
    exact List.map_eq_nil_iff.mp hkeys
  rw [ttlFrom_cons, hpage, hnil, ttlLoop_nil]

/-- 読んだ頁が空でなければ、その lease を送り、最後の record の鍵の後へ進む。 -/
theorem ttlFrom_read_of_some (htr : db.Tracks recs hist) (hb : db.Bounded cfg recs)
    (hc : versionstampToInt64 db.getCompactRev ≤ db.getLatestRev cfg) {maxRevision : Int}
    (hrev : maxRevision = 0 ∨ maxRevision = db.getLatestRev cfg) (splits : Nat → Nat)
    (sent : List Event) {last : RevRecord}
    (hlast : (db.ttlPageAfter startKey).getLast? = some last) :
    ttlFrom cfg db (db.getLatestRev cfg) startKey maxRevision sent (.read splits :: outcomes)
      = ttlFrom cfg db (db.getLatestRev cfg) last.key (db.getLatestRev cfg)
          (sent ++ leasedEvents cfg (db.ttlPageAfter startKey)) outcomes := by
  obtain ⟨records, hpage, hkeys, hleased⟩ := ttlPage_read htr hb hc hrev startKey splits
  have hkey : (records.map RevRecord.key).getLast? = some last.key := by
    rw [hkeys, List.getLast?_map, hlast]
    rfl
  rw [ttlFrom_cons, hpage, ttlLoop_cons hkey, hleased]

theorem watching_iff_of_ends {rev rev' : Int} {sent sent' : List Event} {ends : Prop} (h : ends) :
    TtlEvents.watching rev sent = .watching rev' sent' ↔
      rev' = rev ∧ ends ∧ sent' = sent ++ leasedEvents cfg [] := by
  constructor
  · intro heq
    cases heq
    exact ⟨rfl, h, (List.append_nil _).symm⟩
  · rintro ⟨rfl, -, rfl⟩
    exact congrArg _ (List.append_nil _).symm

/-- 読み出しが失敗すると、record がなければ `Watch` に進み、あれば閉じる。 -/
theorem ttlFrom_failed_watching_iff {rev rev' maxRevision : Int} {sent sent' : List Event}
    (records : List RevRecord) :
    ttlFrom cfg db rev startKey maxRevision sent (.failed records :: outcomes)
        = .watching rev' sent' ↔
      rev' = rev ∧ db.ListingEnds startKey (.failed records :: outcomes) ∧
        sent' = sent ++ leasedEvents cfg [] := by
  cases records with
  | nil =>
    rw [ttlFrom_cons, ttlPage, ttlLoop_nil]
    exact watching_iff_of_ends (Or.inr rfl)
  | cons r rs =>
    rw [ttlFrom_cons, ttlPage, ttlLoop_err]
    refine iff_of_false nofun ?_
    rintro ⟨-, hlt | hfailed, -⟩
    · exact absurd hlt (Nat.not_lt_zero _)
    · cases Option.some.inj hfailed

/-- **頁の loop が `Watch` に進むときに送ったもの。** 失敗の前に読んだ頁の列 `ttlPages` の lease である。 -/
theorem ttlFrom_watching_iff (htr : db.Tracks recs hist) (hb : db.Bounded cfg recs)
    (hc : versionstampToInt64 db.getCompactRev ≤ db.getLatestRev cfg) {rev' : Int}
    {sent' : List Event} :
    ∀ {outcomes : List PageOutcome} {startKey : Key} {maxRevision : Int} {sent : List Event},
      maxRevision = 0 ∨ maxRevision = db.getLatestRev cfg →
      (ttlFrom cfg db (db.getLatestRev cfg) startKey maxRevision sent outcomes
          = .watching rev' sent' ↔
        rev' = db.getLatestRev cfg ∧ db.ListingEnds startKey outcomes ∧
          sent' = sent ++ leasedEvents cfg (db.ttlPages (pagesRead outcomes) startKey).flatten) := by
  intro outcomes
  induction outcomes with
  | nil =>
    intro startKey maxRevision sent _
    refine iff_of_false nofun ?_
    rintro ⟨-, hlt | hnone, -⟩
    · exact absurd hlt (Nat.not_lt_zero _)
    · cases hnone
  | cons o os ih =>
    intro startKey maxRevision sent hrev
    cases o with
    | failed records => exact ttlFrom_failed_watching_iff records
    | read splits =>
      have hread : pagesRead (.read splits :: os) = pagesRead os + 1 := rfl
      cases hlast : (db.ttlPageAfter startKey).getLast? with
      | none =>
        have hends : db.ListingEnds startKey (.read splits :: os) := by
          refine Or.inl ?_
          rw [hread, ttlPages_succ_of_none hlast]
          exact Nat.succ_pos _
        rw [ttlFrom_read_of_none htr hb hc hrev splits sent hlast, hread,
          ttlPages_succ_of_none hlast]
        exact watching_iff_of_ends hends
      | some last =>
        rw [ttlFrom_read_of_some htr hb hc hrev splits sent hlast, ih (Or.inr rfl),
          listingEnds_read_of_some hlast, hread, ttlPages_succ_of_some hlast, List.flatten_cons,
          leasedEvents_append, List.append_assoc]

/-! ## 見落とし -/

theorem watchMinRevision_lt_iff {rev m : Int} (h : 0 < rev) : watchMinRevision rev < m ↔ rev ≤ m := by
  unfold watchMinRevision
  rw [if_pos h]
  omega

theorem mem_of_mem_ttlPages : ∀ {n : Nat} {startKey : Key},
    r ∈ (db.ttlPages n startKey).flatten → r ∈ db.indexRecords
  | 0, _, h => absurd h List.not_mem_nil
  | n + 1, startKey, h => by
    cases hlast : (db.ttlPageAfter startKey).getLast? with
    | none =>
      rw [ttlPages_succ_of_none hlast] at h
      exact absurd h List.not_mem_nil
    | some last =>
      rw [ttlPages_succ_of_some hlast, List.flatten_cons] at h
      rcases List.mem_append.mp h with h | h
      · exact List.mem_of_mem_filter (GroupScan.mem_of_mem_stopped h)
      · exact mem_of_mem_ttlPages h

theorem mem_ttlPages_of_first {n : Nat} (hn : 0 < n) (h : r ∈ db.ttlPageAfter startKey) :
    r ∈ (db.ttlPages n startKey).flatten := by
  obtain ⟨k, rfl⟩ := Nat.exists_eq_add_one.mpr hn
  cases hlast : (db.ttlPageAfter startKey).getLast? with
  | none =>
    rw [List.getLast?_eq_none_iff.mp hlast] at h
    exact absurd h List.not_mem_nil
  | some last =>
    rw [ttlPages_succ_of_some hlast, List.flatten_cons]
    exact List.mem_append_left _ h

theorem mem_first_of_mem_ttlPages_one (h : r ∈ (db.ttlPages 1 startKey).flatten) :
    r ∈ db.ttlPageAfter startKey := by
  cases hlast : (db.ttlPageAfter startKey).getLast? with
  | none =>
    rw [ttlPages_succ_of_none hlast] at h
    exact absurd h List.not_mem_nil
  | some last =>
    rw [ttlPages_succ_of_some hlast, List.flatten_cons] at h
    rcases List.mem_append.mp h with h | h
    · exact h
    · exact absurd h List.not_mem_nil

/-- 索引の record は、event の revision で決まる。 -/
theorem mem_leasedEvents_iff (h : db.Holds recs) {records : List RevRecord}
    (hsub : ∀ x ∈ records, x ∈ db.indexRecords) (hr : r ∈ db.indexRecords)
    (hl : 0 < r.record.lease) :
    revRecordToEvent cfg r ∈ leasedEvents cfg records ↔ r ∈ records := by
  unfold leasedEvents
  rw [List.mem_map]
  constructor
  · rintro ⟨x, hx, he⟩
    have hx := List.mem_of_mem_filter hx
    obtain ⟨x', hx', rfl⟩ := (mem_indexRecords h).mp (hsub x hx)
    obtain ⟨r', hr', rfl⟩ := (mem_indexRecords h).mp hr
    have hrev : versionstampToInt64 x'.rev = versionstampToInt64 r'.rev :=
      congrArg (fun e : Event => e.kv.modRevision) he
    rwa [← h.sorted.eq_of_index_eq hx' hr' ((h.wf x' hx').rev.eq_of_int64_eq (h.wf r' hr').rev hrev)]
  · intro hm
    exact ⟨r, List.mem_filter.mpr ⟨hm, decide_eq_true hl⟩, rfl⟩

/-- 最初の頁を読めたときの見落とし。 -/
theorem findsLeases_read_iff (htr : db.Tracks recs hist) (hb : db.Bounded cfg recs)
    (hc : versionstampToInt64 db.getCompactRev ≤ db.getLatestRev cfg) (splits : Nat → Nat) :
    FindsLeases cfg db (.read splits :: outcomes) ↔
      (db.ListingEnds [] (.read splits :: outcomes) → ∀ r, db.LeasedAt (db.getLatestRev cfg) r →
        versionstampToInt64 r.rev < db.getLatestRev cfg →
        r ∈ (db.ttlPages (pagesRead (.read splits :: outcomes)) []).flatten) := by
  have hrun : ttlEvents cfg db (.read splits :: outcomes)
      = ttlFrom cfg db (db.getLatestRev cfg) [] 0 [] (.read splits :: outcomes) := by
    obtain ⟨records, hpage, -, -⟩ := ttlPage_read htr hb hc (Or.inl rfl) [] splits
    simp only [ttlEvents, ttlFrom, hpage]
  have hfound : ∀ r, db.LeasedAt (db.getLatestRev cfg) r → ∀ n,
      (revRecordToEvent cfg r ∈ leasedEvents cfg (db.ttlPages n []).flatten ↔
        r ∈ (db.ttlPages n []).flatten) := fun r hr n =>
    mem_leasedEvents_iff htr.holds (fun _ hx => mem_of_mem_ttlPages hx)
      (GroupScan.mem_chosen.mp hr.chosen).1 hr.lease
  unfold FindsLeases
  rw [hrun]
  simp only [ttlFrom_watching_iff htr hb hc (Or.inl rfl), List.nil_append]
  constructor
  · intro h hends r hr hlt
    rcases h _ _ ⟨rfl, hends, rfl⟩ r hr with hsent | hwatch
    · exact (hfound r hr _).mp hsent
    · exact absurd ((watchMinRevision_lt_iff hb.pos).mp hwatch) (not_le.mpr hlt)
  · rintro h rev sent ⟨rfl, hends, rfl⟩ r hr
    by_cases hlt : versionstampToInt64 r.rev < db.getLatestRev cfg
    · exact Or.inl ((hfound r hr _).mpr (h hends r hr hlt))
    · exact Or.inr ((watchMinRevision_lt_iff hb.pos).mpr (not_lt.mp hlt))

/-- 最初の頁を読めなければ、`Watch` は 0 から始まる。 -/
theorem findsLeases_failed (h : db.Holds recs) (records : List RevRecord) :
    FindsLeases cfg db (.failed records :: outcomes) := by
  intro rev sent heq r hr
  obtain ⟨r', hr', rfl⟩ := (mem_indexRecords h).mp (GroupScan.mem_chosen.mp hr.chosen).1
  cases records with
  | nil =>
    cases (ttlLoop_nil _ _ []).symm.trans heq
    exact Or.inr (h.wf r' hr').rev.pos
  | cons x xs => cases (ttlLoop_err _ x xs []).symm.trans heq

/-- **lease を持つ鍵を見落とさないのは、`Watch` に進むなら、そのすべてが読んだ頁に載っているときである。**
頁は最初の失敗までに読んだものである。最新の revision で書かれた鍵は `Watch` が送る。最初の頁が失敗すれば
`Watch` は 0 から始まり、見落としはない。 -/
theorem ttlEvents_finds_leases_iff {s : Store} (hs : s.Reachable cfg) (outcomes : List PageOutcome) :
    FindsLeases cfg s.db outcomes ↔
      (0 < pagesRead outcomes → s.db.ListingEnds [] outcomes →
        ∀ r, s.db.LeasedAt (s.db.getLatestRev cfg) r →
          versionstampToInt64 r.rev < s.db.getLatestRev cfg →
          r ∈ (s.db.ttlPages (pagesRead outcomes) []).flatten) := by
  obtain ⟨recs, h⟩ := hs.inv
  cases outcomes with
  | nil => exact iff_of_true nofun fun hpos => absurd hpos (lt_irrefl 0)
  | cons o os =>
    cases o with
    | failed records =>
      exact iff_of_true (findsLeases_failed h.tracks.holds records) fun hpos =>
        absurd hpos (lt_irrefl 0)
    | read splits =>
      rw [findsLeases_read_iff h.tracks h.boundedRecs hs.compactRev_le splits]
      exact ⟨fun hf _ => hf, fun hf => hf (Nat.succ_pos _)⟩

/-- 二つの鍵だけの store。 -/
def leasedRun : List StoreLabel :=
  [.write (.create [0x2F, 97] [] 5) 0 1 2, .write (.create [0x2F, 98] [] 0) 0 2 3]

theorem ttlEvents_finds_leases_of_leased :
    ∃ s r, runSteps (Store.step .default) Store.init leasedRun = some s ∧
      s.db.LeasedAt (s.db.getLatestRev .default) r ∧
      versionstampToInt64 r.rev < s.db.getLatestRev .default ∧
      ∀ outcomes, FindsLeases .default s.db outcomes := by
  have h : (runSteps (Store.step .default) Store.init leasedRun).any (fun s => decide
      ((∀ r ∈ s.db.indexRecords, r ∈ s.db.ttlPageAfter []) ∧
        ∃ r ∈ chosenOf (upTo (s.db.getLatestRev .default)) s.db.indexRecords,
          doesEventHavePrefix r.key [0x2F] = true ∧ 0 < r.record.lease ∧
          versionstampToInt64 r.rev < s.db.getLatestRev .default)) = true := by decide +kernel
  obtain ⟨s, hs, hfirst, r, hc, hu, hl, hlt⟩ := exists_of_any_decide h
  refine ⟨s, r, hs, ⟨hc, hu, hl⟩, hlt, fun outcomes => ?_⟩
  refine (ttlEvents_finds_leases_iff ⟨_, hs⟩ outcomes).mpr fun hpos _ r hr _ => ?_
  exact mem_ttlPages_of_first hpos (hfirst r (GroupScan.mem_chosen.mp hr.chosen).1)

/-! ## 千を超える lease -/

/-- `i` 番目の鍵。番号の順に大きくなる。 -/
def leaseKey (i : Nat) : Key := 0x2F :: List.replicate (i + 1) 0x61

def leaseRecord (i : Nat) : RevRecord where
  rev := commitStamp (i + 2)
  record :=
    { key := leaseKey i, isCreate := true, isDelete := false, lease := 1, valueSize := 0, value := []
      createRevision := dummyVersionstamp, prevRevision := dummyVersionstamp, writeUUID := 0
      latestForKey := false }

/-- lease を持つ鍵を `n` 個作る run。 -/
def leasesRun (n : Nat) : List StoreLabel :=
  (List.range n).map (fun i => .write (.create (leaseKey i) [] 1) 0 0 (i + 2))

theorem leasesRun_succ (n : Nat) :
    leasesRun (n + 1) = leasesRun n ++ [.write (.create (leaseKey n) [] 1) 0 0 (n + 2)] := by
  unfold leasesRun
  rw [List.range_succ, List.map_append]
  rfl

theorem leaseKey_lt {i j : Nat} (h : i < j) : leaseKey i < leaseKey j := by
  have heq : leaseKey j = leaseKey i ++ List.replicate (j - i) 0x61 := by
    unfold leaseKey
    rw [List.cons_append, List.replicate_append_replicate, show i + 1 + (j - i) = j + 1 by omega]
  rw [heq]
  exact lt_append_of_ne_nil (by simpa using Nat.sub_ne_zero_of_lt h)

theorem leaseKey_under (i : Nat) : doesEventHavePrefix (leaseKey i) [0x2F] = true := by
  simp [doesEventHavePrefix, leaseKey]

theorem leaseKey_injective : Function.Injective leaseKey := by
  intro i j h
  rcases lt_trichotomy i j with hlt | rfl | hlt
  · exact absurd h (leaseKey_lt hlt).ne
  · rfl
  · exact absurd h (leaseKey_lt hlt).ne'

/-- run は止まらずに進み、鍵を順に作る。 -/
theorem leasesRun_reaches : ∀ {n : Nat}, n + 2 < 2 ^ 63 →
    ∃ s, runSteps (Store.step .default) Store.init (leasesRun n) = some s ∧
      s.committed = (List.range n).map leaseRecord ∧ s.db.version < n + 2
  | 0, _ => ⟨Store.init, rfl, rfl, by decide⟩
  | n + 1, hn => by
    obtain ⟨s, hr, hcommitted, hversion⟩ := leasesRun_reaches (n := n) (by omega)
    have hwritten : s.Written .default :=
      ⟨leasesRun n, fun a ha => by obtain ⟨i, -, rfl⟩ := List.mem_map.mp ha; rfl, hr⟩
    have hnew : ∀ r ∈ s.committed, r.key ≠ leaseKey n := by
      rw [hcommitted]
      intro r hr' hk
      obtain ⟨i, hi, rfl⟩ := List.mem_map.mp hr'
      exact absurd (leaseKey_injective hk) (List.mem_range.mp hi).ne
    have hcan : s.db.CanCommit .default (n + 2) := ⟨hversion, by omega, nofun⟩
    have hstep : s.step .default (.write (.create (leaseKey n) [] 1) 0 0 (n + 2)) = _ :=
      Store.step_writes_new hwritten.inv.1 hcan rfl hnew (.createNew (leaseKey n) [] 1)
    have hrun : runSteps (Store.step .default) Store.init (leasesRun (n + 1)) = _ :=
      (congrArg _ (leasesRun_succ n)).trans (runSteps_concat hr _)
    rw [hstep] at hrun
    refine ⟨_, hrun, ?_, ?_⟩
    · rw [List.range_succ, List.map_append, ← hcommitted]
      rfl
    · show n + 2 < n + 1 + 2
      omega

section Leases

variable {n i : Nat}

theorem leaseRecord_mem_rangeRecords (h : db.Holds ((List.range n).map leaseRecord)) (hi : i < n) :
    (leaseRecord i).indexed ∈ db.rangeRecords [0x2F] [] :=
  List.mem_filter.mpr
    ⟨(mem_indexRecords h).mpr
      ⟨leaseRecord i, List.mem_map_of_mem (List.mem_range.mpr hi), rfl⟩,
      inListRange_of_slash (leaseKey_under i)⟩

/-- どの鍵の record も一つだけである。 -/
theorem leaseRecord_unique (h : db.Holds ((List.range n).map leaseRecord)) (hm : r ∈ db.indexRecords)
    (hk : r.key = leaseKey i) : r = (leaseRecord i).indexed := by
  obtain ⟨r', hr', rfl⟩ := (mem_indexRecords h).mp hm
  obtain ⟨j, -, rfl⟩ := List.mem_map.mp hr'
  rw [show j = i from leaseKey_injective hk]

theorem leaseRecord_chosen (h : db.Holds ((List.range n).map leaseRecord)) (hi : i < n) :
    (leaseRecord i).indexed ∈ chosenOf (fun _ => true) (db.rangeRecords [0x2F] []) := by
  refine GroupScan.mem_chosen.mpr ⟨leaseRecord_mem_rangeRecords h hi, rfl, rfl, fun b hb _ hk => ?_⟩
  rw [leaseRecord_unique h (List.mem_of_mem_filter hb) hk]

/-- `i` 番目の鍵の前には `i` 個の鍵がある。 -/
theorem le_below_leaseKey (h : db.Holds ((List.range n).map leaseRecord)) (hi : i ≤ n) :
    i ≤ GroupScan.below RevRecord.key RevRecord.rev (fun _ => true) RevRecord.live
      (db.rangeRecords [0x2F] []) (leaseKey i) := by
  have hnodup : ((List.range i).map fun j => (leaseRecord j).indexed).Nodup := by
    refine List.Nodup.map (fun a b he => ?_) List.nodup_range
    exact leaseKey_injective (congrArg RevRecord.key he)
  have hle : ((List.range i).map fun j => (leaseRecord j).indexed).length
      ≤ GroupScan.below RevRecord.key RevRecord.rev (fun _ => true) RevRecord.live
          (db.rangeRecords [0x2F] []) (leaseKey i) := by
    refine (List.subperm_of_subset hnodup fun r hr => ?_).length_le
    obtain ⟨j, hj, rfl⟩ := List.mem_map.mp hr
    have hj := List.mem_range.mp hj
    refine List.mem_filter.mpr ⟨leaseRecord_chosen h (hj.trans_le hi), ?_⟩
    simp only [decide_eq_true_eq]
    exact leaseKey_lt hj
  rwa [List.length_map, List.length_range] at hle

/-- 一頁より多い鍵の、二番目にはみ出した鍵は最初の頁に載らない。 -/
theorem leaseRecord_not_mem_firstPage (h : db.Holds ((List.range n).map leaseRecord))
    (hn : ttlPageSize + 1 < n) :
    (leaseRecord (ttlPageSize + 1)).indexed ∉ db.ttlPageAfter [] := by
  intro hm
  rcases GroupScan.mem_stopped (rangeRecords_ordered h _ _) hm with hlt | hfirst
  · have hle := le_below_leaseKey h hn.le
    exact absurd (hle.trans_lt hlt) (by omega)
  · have hle := hfirst _ (leaseRecord_mem_rangeRecords h (Nat.lt_of_succ_lt hn))
      (le_below_leaseKey h (Nat.lt_of_succ_lt hn).le)
    have hlt : indexKey (leaseKey ttlPageSize) (commitStamp (ttlPageSize + 2))
        < indexKey (leaseKey (ttlPageSize + 1)) (commitStamp (ttlPageSize + 1 + 2)) :=
      Prod.Lex.lt_iff.mpr (Or.inl (leaseKey_lt (Nat.lt_succ_self _)))
    exact absurd hle (not_le.mpr hlt)

end Leases

/-- **一頁に収まらない lease が見落とされる。** 二頁目の読み出しが record を返さずに失敗すると、
`ttlEvents` は残りの鍵を読まずに `Watch` に進む。 -/
theorem unlisted_lease_missed :
    ∃ s, runSteps (Store.step .default) Store.init (leasesRun 1003) = some s ∧
      ¬ FindsLeases .default s.db [.read (fun _ => 0), .failed []] := by
  obtain ⟨s, hr, hcommitted, -⟩ := leasesRun_reaches (n := 1003) (by decide)
  have hwritten : s.Written .default :=
    ⟨leasesRun 1003, fun a ha => by obtain ⟨i, -, rfl⟩ := List.mem_map.mp ha; rfl, hr⟩
  have hinv := hwritten.inv.1
  have hholds := hinv.tracks.holds
  rw [hcommitted] at hholds
  have hlast : versionstampToInt64 (leaseRecord 1002).rev ≤ s.db.getLatestRev .default :=
    hinv.bounded.le _ (by rw [hcommitted]; exact List.mem_map_of_mem (List.mem_range.mpr (by decide)))
  have hlt : versionstampToInt64 (leaseRecord 1001).rev < s.db.getLatestRev .default :=
    lt_of_lt_of_le (by decide) hlast
  refine ⟨s, hr, fun hfinds => ?_⟩
  have hcond := (findsLeases_read_iff hinv.tracks hinv.bounded
    (Store.Reachable.compactRev_le ⟨_, hr⟩) _).mp hfinds (Or.inr rfl)
  have hleased : s.db.LeasedAt (s.db.getLatestRev .default) (leaseRecord 1001).indexed := by
    obtain ⟨hm, -, hlive, -⟩ := GroupScan.mem_chosen.mp
      (leaseRecord_chosen hholds (i := 1001) (by decide))
    refine ⟨GroupScan.mem_chosen.mpr ⟨List.mem_of_mem_filter hm, decide_eq_true hlt.le, hlive, ?_⟩,
      leaseKey_under 1001, by decide⟩
    intro b hb _ hk
    rw [leaseRecord_unique hholds hb hk]
  exact leaseRecord_not_mem_firstPage hholds (by decide)
    (mem_first_of_mem_ttlPages_one (hcond _ hleased hlt))

end KubeFdb
