import KubeFdb.Driver.Watch
import KubeFdb.Properties.CompactBatch

/-!
# log の読み出しの仕様

`afterCollector` は、指定した revision より後ろの record を古い順に読み、event にする。
batch 一つがすることを、database が表す record の列について述べる。

* `after_batchLoop` — batch は残りの列の先頭から何個かを読む。止まるのは、時間が来たとき、読み切った
  とき、`latestRev` より新しい record に届いたとき、`limit` に届いたときである（`AfterStopped`）
* `afterBatch_eq` — poll の読み出し。残りがあれば、少なくとも一つ読む
-/

namespace KubeFdb

open Tuple

/-! ## event -/

/-- revision `rev` の record。 -/
def atRev (recs : List RevRecord) (rev : Versionstamp) : Option RevRecord :=
  recs.find? (fun r => decide (r.rev = rev))

/-- 列 `recs` が残っているときの record の event。 -/
def eventIn (cfg : Config) (recs : List RevRecord) (r : RevRecord) : Event :=
  if r.record.prevRevision ≠ dummyVersionstamp then
    { revRecordToEvent cfg r with
      prevKV := (atRev recs r.record.prevRevision).map (fun r' => (revRecordToEvent cfg r').kv) }
  else revRecordToEvent cfg r

/-- 列 `l` を読んだときの event。 -/
def eventsOf (cfg : Config) (takeKey : Key → Bool) (recs l : List RevRecord) : List Event :=
  (l.filter (fun r => takeKey r.key)).map (eventIn cfg recs)

section

variable {cfg : Config} {takeKey : Key → Bool} {db : Db} {recs : List RevRecord} {r : RevRecord}

@[simp] theorem eventIn_kv : (eventIn cfg recs r).kv = (revRecordToEvent cfg r).kv := by
  unfold eventIn
  split <;> rfl

@[simp] theorem eventIn_create : (eventIn cfg recs r).create = r.record.isCreate := by
  unfold eventIn
  split <;> rfl

theorem eventIn_modRevision :
    (eventIn cfg recs r).kv.modRevision = versionstampToInt64 r.rev := by
  rw [eventIn_kv]
  rfl

theorem eventIn_key : (eventIn cfg recs r).kv.key = r.key := by
  rw [eventIn_kv]
  rfl

@[simp] theorem eventsOf_nil : eventsOf cfg takeKey recs [] = [] := rfl

theorem eventsOf_append (l l' : List RevRecord) :
    eventsOf cfg takeKey recs (l ++ l')
      = eventsOf cfg takeKey recs l ++ eventsOf cfg takeKey recs l' := by
  unfold eventsOf
  rw [List.filter_append, List.map_append]

/-- `PrevKV` を除いた event。前の record は compaction で消えていてよい。 -/
def Event.withoutPrev (e : Event) : Event := { e with prevKV := none }

/-- `events` が record の列 `rs` の event であること。`PrevKV` は比べない。 -/
def Reports (cfg : Config) (events : List Event) (rs : List RevRecord) : Prop :=
  events.map Event.withoutPrev = rs.map (fun r => (revRecordToEvent cfg r).withoutPrev)

instance (events : List Event) (rs : List RevRecord) : Decidable (Reports cfg events rs) :=
  inferInstanceAs (Decidable (_ = _))

theorem reports_nil : Reports cfg [] [] := rfl

theorem Reports.append {events events' : List Event} {rs rs' : List RevRecord}
    (h : Reports cfg events rs) (h' : Reports cfg events' rs') :
    Reports cfg (events ++ events') (rs ++ rs') := by
  unfold Reports at *
  rw [List.map_append, List.map_append, h, h']

theorem Reports.modRevision {events : List Event} {rs : List RevRecord}
    (h : Reports cfg events rs) :
    events.map (fun e => e.kv.modRevision) = rs.map RevRecord.revision := by
  have hm := congrArg (List.map (fun e : Event => e.kv.modRevision)) h
  rw [List.map_map, List.map_map] at hm
  exact hm

theorem withoutPrev_eventIn (r : RevRecord) :
    (eventIn cfg recs r).withoutPrev = (revRecordToEvent cfg r).withoutPrev := by
  unfold eventIn
  split <;> rfl

/-- `PrevKV` を除けば、event は record だけで決まる。 -/
theorem reports_eventsOf (cfg : Config) (takeKey : Key → Bool) (recs l : List RevRecord) :
    Reports cfg (eventsOf cfg takeKey recs l) (l.filter (fun r => takeKey r.key)) := by
  unfold Reports eventsOf
  rw [List.map_map]
  exact List.map_congr_left fun r _ => withoutPrev_eventIn r

theorem atRev_of_mem (hs : SortedBy RevRecord.rev recs) (hr : r ∈ recs) :
    atRev recs r.rev = some r := by
  unfold atRev
  cases hf : recs.find? (fun x => decide (x.rev = r.rev)) with
  | none => exact absurd (List.find?_eq_none.mp hf r hr) (by simp)
  | some x =>
    have hx : x.rev = r.rev := by simpa using List.find?_some hf
    rw [hs.eq_of_index_eq (List.mem_of_find?_eq_some hf) hr hx]

theorem atRev_of_not_mem {rev : Versionstamp} (h : ∀ r ∈ recs, r.rev ≠ rev) :
    atRev recs rev = none :=
  List.find?_eq_none.mpr (fun r hr => by simpa using h r hr)

/-- log から読んだ record の event。 -/
theorem eventOf_eq (h : db.Holds recs) (r : RevRecord) :
    AfterCollector.eventOf cfg db r.stored = .ok (eventIn cfg recs r) := by
  unfold AfterCollector.eventOf eventIn
  rw [show r.stored.record.prevRevision = r.record.prevRevision from rfl]
  by_cases hd : r.record.prevRevision ≠ dummyVersionstamp
  · rw [if_pos hd, if_pos hd]
    by_cases hex : ∃ r' ∈ recs, r'.rev = r.record.prevRevision
    · obtain ⟨r', hr', hrev⟩ := hex
      rw [← hrev, get_eq h hr', atRev_of_mem h.sorted hr']
      rfl
    · have hne : ∀ r' ∈ recs, r'.rev ≠ r.record.prevRevision := fun r' hr' hc => hex ⟨r', hr', hc⟩
      unfold ByRevision.get
      rw [ByRevision.get_of_not_mem h.log hne, atRev_of_not_mem hne]
      rfl
  · rw [if_neg hd, if_neg hd]
    rfl

end

/-! ## 残りの列 -/

/-- `minRevision` と `begin_` より後ろの record。 -/
def afterTodo (recs : List RevRecord) (minRevision : Int) (begin_ : Option Versionstamp) :
    List RevRecord :=
  recs.filter (fun r =>
    decide (∀ b ∈ begin_, b < r.rev) && decide (int64ToVersionstamp minRevision < r.rev))

section

variable {cfg : Config} {params : AfterParams} {db : Db} {recs : List RevRecord}

theorem mem_afterTodo {minRevision : Int} {begin_ : Option Versionstamp} {r : RevRecord} :
    r ∈ afterTodo recs minRevision begin_ ↔
      r ∈ recs ∧ (∀ b ∈ begin_, b < r.rev) ∧ int64ToVersionstamp minRevision < r.rev := by
  simp [afterTodo]

theorem afterTodo_sorted (h : SortedBy RevRecord.rev recs) (minRevision : Int)
    (begin_ : Option Versionstamp) : SortedBy RevRecord.rev (afterTodo recs minRevision begin_) :=
  h.filter _

theorem afterRange_eq (h : db.Holds recs) (minRevision : Int) (begin_ : Option Versionstamp) :
    afterRange minRevision db (begin_.map (chunkKey · maxInt64))
      = (afterTodo recs minRevision begin_).flatMap logEntries := by
  have hmin : db.byRevision.entries.filter
      (fun e => decide (chunkKey (int64ToVersionstamp minRevision) maxInt64 < e.1))
      = (recs.filter (fun r => decide (int64ToVersionstamp minRevision < r.rev))).flatMap
        logEntries := by
    have := entriesAfter_flatMap (f := logEntries) (fun r e he => he)
      (some (int64ToVersionstamp minRevision)) (fun r hr => (h.wf r hr).bound)
    rw [← h.log] at this
    simpa [entriesAfter] using this
  unfold afterRange
  rw [hmin, entriesAfter_flatMap (fun r e he => he) begin_
    (fun r hr => (h.wf r (List.mem_of_mem_filter hr)).bound), List.filter_filter]
  rfl

/-- `minRevision` の後ろから読む列。負の `minRevision` では、何も読まない。 -/
theorem afterTodo_of_nonneg (hw : ∀ r ∈ recs, r.Wf) {minRevision : Int} (h0 : 0 ≤ minRevision)
    (h63 : minRevision < 2 ^ 63) :
    afterTodo recs minRevision none = recs.filter (fun r => decide (minRevision < r.revision)) := by
  unfold afterTodo
  refine List.filter_congr fun r hr => ?_
  simp [(hw r hr).int64_lt_iff h0 h63]

theorem nonneg_of_mem_afterTodo (hw : ∀ r ∈ recs, r.Wf) {minRevision : Int}
    (hmin : -2 ^ 63 ≤ minRevision) {begin_ : Option Versionstamp} {r : RevRecord}
    (hr : r ∈ afterTodo recs minRevision begin_) : 0 ≤ minRevision := by
  by_contra hneg
  obtain ⟨hr, -, hlt⟩ := mem_afterTodo.mp hr
  exact absurd ((hw r hr).rev.le_of_negative (not_le.mp hneg) hmin) (not_le.mpr hlt)

/-- `afterAll` の範囲に残っている header。 -/
def unreadLog (minRevision : Int) (db : Db) (begin_ : Option RevKey) :
    List (Versionstamp × RevTuple) :=
  (afterRange minRevision db begin_).filterMap headerOf

theorem unreadLog_eq (h : db.Holds recs) (minRevision : Int) (begin_ : Option Versionstamp) :
    unreadLog minRevision db (begin_.map (chunkKey · maxInt64))
      = (afterTodo recs minRevision begin_).map
        (fun r => (r.rev, ByRevision.recordToTuple r.record)) := by
  unfold unreadLog
  rw [afterRange_eq h]
  exact filterMap_headerOf_flatMap filterMap_headerOf_logEntries _

/-! ## batch の loop -/

/-- 走査が `latestRev` を超えたこと。0 は上限なしである。 -/
def AfterCollector.beyond (c : AfterCollector) (rev : Versionstamp) : Prop :=
  c.latestRev ≠ 0 ∧ c.latestRev < versionstampToInt64 rev

/-- 列 `l` を読んだ後の collector。 -/
def AfterCollector.taking (cfg : Config) (params : AfterParams) (recs l : List RevRecord)
    (c : AfterCollector) : AfterCollector :=
  { c with batchEvents := c.batchEvents ++ eventsOf cfg params.takeKey recs l }

theorem after_next (cfg : Config) (params : AfterParams) (h : db.Holds recs) {r : RevRecord} (hr : r ∈ recs) (c : AfterCollector)
    (it : RevIterator) :
    (c.beyond r.rev → AfterCollector.next cfg params c db (logEntries r ++ it)
      = (c, db, .ok (it, some (chunkKey r.rev maxInt64), false))) ∧
    (¬ c.beyond r.rev → AfterCollector.next cfg params c db (logEntries r ++ it)
      = (c.taking cfg params recs [r], db,
        .ok (it, some (chunkKey r.rev maxInt64), (c.taking cfg params recs [r]).needMore params))) := by
  unfold AfterCollector.next AfterCollector.beyond
  rw [getFromIterator_logEntries (h.wf r hr).size]
  simp only [show r.stored.rev = r.rev from rfl, show r.stored.key = r.key from rfl, eventOf_eq h]
  constructor
  · intro hb
    rw [if_pos hb]
  · intro hb
    rw [if_neg hb]
    unfold AfterCollector.taking eventsOf
    cases htake : params.takeKey r.key with
    | true => simp [htake]
    | false => simp [htake]

/-- batch の loop が止まる場合。`c` は止まったときの collector である。 -/
inductive AfterStopped (params : AfterParams) (c : AfterCollector) (n : Nat)
    (todo : List RevRecord) : (m : Nat) → (more : Bool) → Prop
  /-- 時間が来た。 -/
  | timeout (h : n ≤ todo.length) : AfterStopped params c n todo n true
  /-- 読み切った。 -/
  | exhausted (h : todo.length < n) : AfterStopped params c n todo todo.length false
  /-- 最初の batch より後の record に届いた。 -/
  | beyond (m : Nat) (r : RevRecord) (rest : List RevRecord) (h : todo.drop m = r :: rest)
      (hr : c.beyond r.rev) : AfterStopped params c n todo m false
  /-- `limit` に届いた。 -/
  | full (m : Nat) (hm : m < todo.length) (hw : c.needMore params = false) :
    AfterStopped params c n todo (m + 1) false

theorem AfterCollector.taking_append (c : AfterCollector) (l l' : List RevRecord) :
    (c.taking cfg params recs l).taking cfg params recs l'
      = c.taking cfg params recs (l ++ l') := by
  unfold AfterCollector.taking
  rw [eventsOf_append, List.append_assoc]

@[simp] theorem AfterCollector.taking_nil (c : AfterCollector) :
    c.taking cfg params recs [] = c := by
  unfold AfterCollector.taking
  rw [eventsOf_nil, List.append_nil]

/-- batch の loop は、残りの列の先頭から `m` 個を読む。 -/
theorem after_batchLoop (cfg : Config) (params : AfterParams) (h : db.Holds recs) : ∀ (n : Nat) (todo : List RevRecord)
    (c : AfterCollector) (last : Option RevKey), (∀ r ∈ todo, r ∈ recs) →
    ∃ m k more, batchLoop (AfterCollector.processor cfg params) n c db (todo.flatMap logEntries) last
        = (c.taking cfg params recs (todo.take m), db, .ok ⟨k, more⟩) ∧
      (more = true → k = ((lastVisited (todo.take m)).map (chunkKey · maxInt64)).or last) ∧
      AfterStopped params (c.taking cfg params recs (todo.take m)) n todo m more ∧
      m ≤ n ∧ ∀ r ∈ todo.take m, ¬ c.beyond r.rev
  | 0, todo, c, last, _ =>
    ⟨0, last, true, by rw [List.take_zero, AfterCollector.taking_nil]; rfl, fun _ => rfl,
      .timeout (Nat.zero_le _), le_rfl, by simp⟩
  | n + 1, [], c, last, _ =>
    ⟨0, none, false, by rw [List.take_zero, AfterCollector.taking_nil]; rfl,
      fun hf => absurd hf (by decide), .exhausted (Nat.succ_pos n), Nat.zero_le _, by simp⟩
  | n + 1, r :: todo, c, last, hm => by
    obtain ⟨hstop, hgo⟩ := after_next cfg params h (hm r List.mem_cons_self) c
      (todo.flatMap logEntries)
    rw [batchLoop, List.flatMap_cons]
    by_cases hb : c.beyond r.rev
    · -- 最初の batch の後に commit された record で止まる
      refine ⟨0, some (chunkKey r.rev maxInt64), false, ?_, fun hf => absurd hf (by decide), ?_,
        Nat.zero_le _, by simp⟩
      · rw [show (AfterCollector.processor cfg params).next c db _ = _ from hstop hb,
          List.take_zero, AfterCollector.taking_nil]
        rfl
      · rw [List.take_zero, AfterCollector.taking_nil]
        exact .beyond 0 r todo rfl hb
    · rw [show (AfterCollector.processor cfg params).next c db _ = _ from hgo hb]
      cases hmore : (c.taking cfg params recs [r]).needMore params with
      | false =>
        exact ⟨1, some (chunkKey r.rev maxInt64), false, rfl, fun hf => absurd hf (by decide),
          .full 0 (Nat.succ_pos _) hmore, Nat.succ_pos n, by simpa using hb⟩
      | true =>
        obtain ⟨m, k, more, hloop, hk, hs, hm', hin⟩ := after_batchLoop cfg params h n todo
          (c.taking cfg params recs [r]) (some (chunkKey r.rev maxInt64)) (fun r' hr' => hm r' (List.mem_cons_of_mem _ hr'))
        rw [AfterCollector.taking_append] at hloop hs
        refine ⟨m + 1, k, more, hloop, fun hmo => ?_, ?_, Nat.succ_le_succ hm', ?_⟩
        · rw [hk hmo, List.take_succ_cons, lastVisited_cons]
          cases lastVisited (todo.take m) with
          | none => rfl
          | some rev => rfl
        · rw [List.take_succ_cons]
          cases hs with
          | timeout hn => exact .timeout (Nat.succ_le_succ hn)
          | exhausted hn => exact .exhausted (Nat.succ_lt_succ hn)
          | beyond m x rest hd hx => exact .beyond (m + 1) x rest hd hx
          | full m hm hw => exact .full (m + 1) (Nat.succ_lt_succ hm) hw
        · rw [List.take_succ_cons]
          exact List.forall_mem_cons.mpr ⟨hb, hin⟩

/-! ## 読まれる event -/

/-- 成功した batch が database `db` から読んだ event。`Watch` が送る event は、poll の読み出しでも最初の
読み出しでも、どれかの batch がこうして読んだものである。 -/
def Db.Reads (cfg : Config) (db : Db) (e : Event) : Prop :=
  ∃ (params : AfterParams) (c : AfterCollector) (n : Nat) (begin_ : Option Versionstamp)
    (c' : AfterCollector) (tr : Db) (res : BatchResult RevKey),
    processBatch (AfterCollector.processor cfg params) n c db
      (afterRange params.minRevision db (begin_.map (chunkKey · maxInt64))) = (c', tr, .ok res) ∧
    e ∈ c'.batchEvents

theorem after_endBatch_batchEvents (cfg : Config) (params : AfterParams) (c : AfterCollector)
    (tr : Db) (isLast : Bool) :
    (AfterCollector.endBatch cfg params c tr isLast).1.batchEvents = c.batchEvents := by
  unfold AfterCollector.endBatch
  split <;> split <;> rfl

/-- 読まれる event は、残っている record の event である。 -/
theorem Db.reads_iff (h : db.Holds recs) {e : Event} :
    db.Reads cfg e ↔ ∃ r ∈ recs, e = eventIn cfg recs r := by
  constructor
  · rintro ⟨params, c, n, begin_, c', tr, res, hp, he⟩
    have hmem : ∀ r ∈ afterTodo recs params.minRevision begin_, r ∈ recs :=
      fun r hr => (mem_afterTodo.mp hr).1
    obtain ⟨m, k, more, hloop, -⟩ := after_batchLoop cfg params h (n + 1)
      (afterTodo recs params.minRevision begin_)
      ((AfterCollector.processor cfg params).startBatch c) none hmem
    rw [← afterRange_eq h] at hloop
    simp only [processBatch, hloop] at hp
    split at hp
    · cases hp
    · next s2 tr' hend =>
      cases hp
      have hsame := after_endBatch_batchEvents cfg params
        (AfterCollector.taking cfg params recs ((afterTodo recs params.minRevision begin_).take m)
          ((AfterCollector.processor cfg params).startBatch c)) db (!more)
      rw [show AfterCollector.endBatch cfg params _ db (!more) = _ from hend] at hsame
      have he : e ∈ s2.batchEvents := he
      rw [hsame] at he
      obtain ⟨r, hr, rfl⟩ := List.mem_map.mp (show e ∈ [] ++ eventsOf cfg params.takeKey recs
        ((afterTodo recs params.minRevision begin_).take m) from he)
      exact ⟨r, hmem r (List.mem_of_mem_take (List.mem_of_mem_filter hr)), rfl⟩
  · rintro ⟨r, hr, rfl⟩
    -- 上限なしの batch は、列をすべて読む
    obtain ⟨m, k, more, hloop, -, hs, -⟩ := after_batchLoop cfg ⟨0, false, 0, fun _ => true⟩ h
      (recs.length + 1) (afterTodo recs 0 none) newAfterCollector none
      (fun r hr => (mem_afterTodo.mp hr).1)
    have hpos : int64ToVersionstamp 0 < r.rev :=
      ((h.wf r hr).int64_lt_iff le_rfl (by decide)).mpr (h.wf r hr).rev.pos
    have hall : (afterTodo recs 0 none).take m = afterTodo recs 0 none := by
      cases hs with
      | timeout hn => exact absurd (hn.trans (List.length_filter_le _ _)) (by omega)
      | exhausted hn => exact List.take_length
      | beyond m x rest hd hx => exact absurd rfl hx.1
      | full m hm hw => cases hw
    rw [hall, ← afterRange_eq h] at hloop
    refine ⟨_, newAfterCollector, recs.length, none, _, _, _, processBatch_ok hloop rfl, ?_⟩
    refine List.mem_map.mpr ⟨r, List.mem_filter.mpr ⟨?_, rfl⟩, rfl⟩
    exact mem_afterTodo.mpr ⟨hr, by simp, hpos⟩

/-! ## poll の読み出し -/

/-- `afterBatch` は、残りの先頭から event を読む。残りがあれば、少なくとも一つは読む。 -/
theorem afterBatch_eq (cfg : Config) (h : db.Holds recs) (minRevision : Int) (takeKey : Key → Bool)
    (n : Nat) :
    ∃ m, afterBatch cfg minRevision takeKey n db
        = (db.getLatestRev cfg,
          eventsOf cfg takeKey recs ((afterTodo recs minRevision none).take m), .ok ()) ∧
      (afterTodo recs minRevision none ≠ [] → 0 < m) := by
  obtain ⟨m, k, more, hloop, -, hs, -⟩ := after_batchLoop cfg (afterBatchParams cfg minRevision takeKey)
    h (n + 1) (afterTodo recs minRevision none) newAfterCollector none
    (fun r hr => (mem_afterTodo.mp hr).1)
  refine ⟨m, ?_, fun hne => ?_⟩
  · unfold afterBatch
    have hproc := processBatch_ok (p := AfterCollector.processor cfg
      (afterBatchParams cfg minRevision takeKey)) (s := newAfterCollector) hloop rfl
    rw [← afterRange_eq h minRevision none] at hproc
    simp only [show (Option.map (chunkKey · maxInt64) none : Option RevKey) = none from rfl] at hproc
    rw [hproc]
    rfl
  · cases hs with
    | timeout hn => exact Nat.succ_pos n
    | exhausted hn => exact List.length_pos_iff.mpr hne
    | beyond m r rest hd hr => exact absurd rfl hr.1
    | full m hm hw => exact Nat.succ_pos m

/-- poll の読み出しが返す event は、読まれた event である。 -/
theorem Db.reads_of_afterBatch (h : db.Holds recs) {minRevision : Int} {takeKey : Key → Bool} {n : Nat}
    {e : Event} (he : e ∈ (afterBatch cfg minRevision takeKey n db).2.1) : db.Reads cfg e := by
  obtain ⟨m, hb, -⟩ := afterBatch_eq cfg h minRevision takeKey n
  rw [hb] at he
  obtain ⟨r, hr, rfl⟩ := List.mem_map.mp he
  have hr := mem_afterTodo.mp (List.mem_of_mem_take (List.mem_of_mem_filter hr))
  exact (Db.reads_iff h).mpr ⟨r, hr.1, rfl⟩

/-! ## watch の最初の読み出し -/

/-- 読み始める位置が watermark より古いこと。 -/
def AfterCompacted (minRevision : Int) (db : Db) : Prop :=
  0 < minRevision ∧ minRevision < versionstampToInt64 db.getCompactRev

instance (minRevision : Int) (db : Db) : Decidable (AfterCompacted minRevision db) :=
  inferInstanceAs (Decidable (_ ∧ _))

/-- `afterAll` の batch が、残っている列 `todo` の先頭の `m` 個を読んだこと。error でも collector に残る。 -/
structure AfterTaken (cfg : Config) (takeKey : Key → Bool) (db : Db) (recs : List RevRecord) (n : Nat)
    (call : AfterCall) (todo : List RevRecord) (m : Nat) (call' : AfterCall) : Prop where
  le : m ≤ n + 1
  events : call'.collector.events
    = call.collector.events ++ eventsOf cfg takeKey recs (todo.take m)
  latestRev : call'.collector.latestRev
    = if call.collector.latestRev = 0 then db.getLatestRev cfg else 0
  within : ∀ r ∈ todo.take m, ¬ call.collector.beyond r.rev
  rest : ∀ r ∈ todo.take (n + 1), r ∈ todo.take m ∨ call.collector.beyond r.rev

/-- `afterAll` の batch 一つの結果。`todo` はこの snapshot で残っている列である。 -/
inductive AfterOutcome (cfg : Config) (takeKey : Key → Bool) (minRevision : Int) (db : Db)
    (recs : List RevRecord) (n : Nat) (call : AfterCall) (todo : List RevRecord) (call' : AfterCall) :
    Prop
  | compacted (hc : AfterCompacted minRevision db) (hfail : call'.status = .failed .compacted)
      (hrev : call'.collector.compactRevision = versionstampToInt64 db.getCompactRev) (m : Nat)
      (ht : AfterTaken cfg takeKey db recs n call todo m call')
  /-- 時間が来て、続きは次の batch になる。 -/
  | continued (hnc : ¬ AfterCompacted minRevision db) (hn : n < todo.length)
      (ht : AfterTaken cfg takeKey db recs n call todo (n + 1) call')
      (hrun : call'.status = .running)
      (hbegin : call'.beginKey = (lastVisited (todo.take (n + 1))).map (chunkKey · maxInt64))
  /-- 読み終えた。読まなかった record は、前の batch の snapshot より新しい。 -/
  | finished (hnc : ¬ AfterCompacted minRevision db) (m : Nat)
      (ht : AfterTaken cfg takeKey db recs n call todo m call')
      (hdone : call'.status = .done)
      (hrest : ∀ r ∈ todo.drop m, call.collector.beyond r.rev)

/-- `endBatch` は collector の読んだものを変えない。 -/
theorem after_endBatch (cfg : Config) (takeKey : Key → Bool) (minRevision : Int) (db : Db)
    (c : AfterCollector) (isLast : Bool) :
    let p := AfterCollector.processor cfg (afterAllParams minRevision takeKey)
    let c1 := if c.latestRev = 0 then { c with batchLatestRev := db.getLatestRev cfg } else c
    (AfterCompacted minRevision db → p.endBatch c db isLast
      = ({ c1 with batchCompactRev := versionstampToInt64 db.getCompactRev }, db,
        .error .compacted)) ∧
    (¬ AfterCompacted minRevision db → p.endBatch c db isLast = (c1, db, .ok ())) := by
  constructor
  · intro hc
    exact if_pos ⟨rfl, hc⟩
  · intro hc
    exact if_neg (fun h => hc h.2)

/-- 成功した batch の後の collector。`c` は loop の後の collector である。 -/
def AfterCollector.closed (cfg : Config) (db : Db) (c : AfterCollector) : AfterCollector :=
  let c1 := if c.latestRev = 0 then { c with batchLatestRev := db.getLatestRev cfg } else c
  { c1 with
    events := c1.events ++ c1.batchEvents
    latestRev := c1.batchLatestRev
    compactRevision := c1.batchCompactRev }

theorem AfterCollector.closed_events (c : AfterCollector) :
    (c.closed cfg db).events = c.events ++ c.batchEvents := by
  unfold AfterCollector.closed
  split <;> rfl

theorem AfterCollector.closed_latestRev (c : AfterCollector) (hc : c.batchLatestRev = 0) :
    (c.closed cfg db).latestRev = if c.latestRev = 0 then db.getLatestRev cfg else 0 := by
  unfold AfterCollector.closed
  split
  · rfl
  · exact hc

/-- 残りの列は昇順だから、先頭が新しければ、すべて新しい。 -/
theorem beyond_of_drop {c : AfterCollector} {todo rest : List RevRecord} {m : Nat} {r : RevRecord}
    (hs : SortedBy RevRecord.rev todo) (hw : ∀ x ∈ todo, x.Wf) (hd : todo.drop m = r :: rest)
    (hr : c.beyond r.rev) : ∀ x ∈ todo.drop m, c.beyond x.rev := by
  intro x hx
  have hsd : SortedBy RevRecord.rev (r :: rest) := hd ▸ hs.sublist (List.drop_sublist m todo)
  have hrm : r ∈ todo := List.mem_of_mem_drop (hd ▸ List.mem_cons_self)
  have hxm := hw x (List.mem_of_mem_drop hx)
  rw [hd] at hx
  rcases List.mem_cons.mp hx with rfl | hx
  · exact hr
  · exact ⟨hr.1, hr.2.trans (((hw r hrm).rev.lt_iff hxm.rev).mp (hsd.lt_of_mem hx))⟩

/-- `afterAll` の batch の仕様。 -/
theorem after_batch (cfg : Config) (takeKey : Key → Bool) (minRevision : Int) (h : db.Holds recs)
    {call : AfterCall} {begin_ : Option Versionstamp}
    (hb : call.beginKey = begin_.map (chunkKey · maxInt64)) (n : Nat) :
    (call.batch (AfterCollector.processor cfg (afterAllParams minRevision takeKey))
      (afterRange minRevision) n db).2 = db ∧
    AfterOutcome cfg takeKey minRevision db recs n call (afterTodo recs minRevision begin_)
      (call.batch (AfterCollector.processor cfg (afterAllParams minRevision takeKey))
        (afterRange minRevision) n db).1 := by
  have hmem : ∀ r ∈ afterTodo recs minRevision begin_, r ∈ recs :=
    fun r hr => (mem_afterTodo.mp hr).1
  have hsorted := afterTodo_sorted h.sorted minRevision begin_
  generalize hp : afterAllParams minRevision takeKey = params
  obtain ⟨m, k, more, hloop, hk, hs, hmn, hin⟩ := after_batchLoop cfg params h (n + 1)
    (afterTodo recs minRevision begin_)
    ((AfterCollector.processor cfg params).startBatch call.collector) none hmem
  rw [← afterRange_eq h minRevision begin_, ← hb] at hloop
  generalize hc' : AfterCollector.taking cfg params recs _ _ = c at hloop hs
  have hlatest : c.latestRev = call.collector.latestRev := by rw [← hc']; rfl
  have hevents : (c.closed cfg db).events = call.collector.events
      ++ eventsOf cfg takeKey recs ((afterTodo recs minRevision begin_).take m) := by
    rw [AfterCollector.closed_events, ← hc', ← hp]
    rfl
  have hlast : (c.closed cfg db).latestRev
      = if call.collector.latestRev = 0 then db.getLatestRev cfg else 0 := by
    rw [AfterCollector.closed_latestRev c (by rw [← hc']; rfl), hlatest]
  have hmore : more = true → m = n + 1 ∧ n < (afterTodo recs minRevision begin_).length := by
    intro hmo
    cases hs with
    | timeout hn => exact ⟨rfl, Nat.lt_of_succ_le hn⟩
    | _ => cases hmo
  have hdrop : more = false → ∀ r ∈ (afterTodo recs minRevision begin_).drop m,
      call.collector.beyond r.rev := by
    intro hmo
    cases hs with
    | timeout hn => cases hmo
    | exhausted hn =>
      intro r hr
      rw [List.drop_length] at hr
      exact absurd hr List.not_mem_nil
    | beyond m r rest hd hr =>
      have hr' : call.collector.beyond r.rev := by
        unfold AfterCollector.beyond at hr ⊢
        rwa [hlatest] at hr
      exact beyond_of_drop hsorted (fun x hx => h.wf x (hmem x hx)) hd hr'
    | full m hm hw => rw [← hp] at hw; cases hw
  have hrest : ∀ r ∈ (afterTodo recs minRevision begin_).take (n + 1),
      r ∈ (afterTodo recs minRevision begin_).take m ∨ call.collector.beyond r.rev := by
    intro r hr
    cases hmo : more with
    | true => exact Or.inl (by rwa [(hmore hmo).1])
    | false =>
      have hr := List.mem_of_mem_take hr
      rw [← List.take_append_drop m (afterTodo recs minRevision begin_)] at hr
      exact (List.mem_append.mp hr).imp_right (hdrop hmo r)
  have htaken : ∀ {call' : AfterCall}, call'.collector.events = (c.closed cfg db).events →
      call'.collector.latestRev = (c.closed cfg db).latestRev →
      AfterTaken cfg takeKey db recs n call (afterTodo recs minRevision begin_) m call' :=
    fun he hl => ⟨hmn, he.trans hevents, hl.trans hlast, hin, hrest⟩
  obtain ⟨hcomp, hok⟩ := after_endBatch cfg takeKey minRevision db c (!more)
  rw [hp] at hcomp hok
  by_cases hc : AfterCompacted minRevision db
  · rw [RangeCall.batch_error (processBatch_endBatch_error hloop (hcomp hc))]
    exact ⟨rfl, .compacted hc rfl rfl m (htaken rfl rfl)⟩
  · rw [RangeCall.batch_ok (processBatch_ok hloop (hok hc))]
    cases hmo : more with
    | true =>
      obtain ⟨rfl, hn⟩ := hmore hmo
      exact ⟨rfl, .continued hc hn (htaken rfl rfl) rfl ((hk hmo).trans Option.or_none)⟩
    | false => exact ⟨rfl, .finished hc m (htaken rfl rfl) rfl (hdrop hmo)⟩

/-! ## 途中の afterAll -/

/-- 読んだ列 `read` の後ろに残る列。 -/
theorem append_afterTodo (hs : SortedBy RevRecord.rev recs) {minRevision : Int}
    {read : List RevRecord} (hp : read <+: afterTodo recs minRevision none) :
    read ++ afterTodo recs minRevision (lastVisited read) = afterTodo recs minRevision none := by
  obtain ⟨t, ht⟩ := hp
  have hsorted := afterTodo_sorted hs minRevision none
  have hfilter : afterTodo recs minRevision (lastVisited read)
      = (afterTodo recs minRevision none).filter
        (fun r => decide (∀ b ∈ lastVisited read, b < r.rev)) := by
    unfold afterTodo
    rw [List.filter_filter]
    simp
  rw [← ht] at hsorted hfilter ⊢
  rw [hfilter, filter_lastVisited hsorted]

theorem append_take_isPrefix (hs : SortedBy RevRecord.rev recs) {minRevision : Int}
    {read : List RevRecord} (hp : read <+: afterTodo recs minRevision none) (m : Nat) :
    read ++ (afterTodo recs minRevision (lastVisited read)).take m
      <+: afterTodo recs minRevision none := by
  rw [← append_afterTodo hs hp]
  exact (List.prefix_append_right_inj read).mpr (List.take_prefix m _)

/-- 途中の `afterAll` が `read` を読み終えていること。 -/
structure AfterInv (cfg : Config) (takeKey : Key → Bool) (minRevision : Int) (recs : List RevRecord)
    (call : AfterCall) (read : List RevRecord) : Prop where
  running : call.status = .running
  begin_ : call.beginKey = (lastVisited read).map (chunkKey · maxInt64)
  isPrefix : read <+: afterTodo recs minRevision none
  events : call.collector.events = eventsOf cfg takeKey recs read

/-- 途中の `afterAll` の batch の結果。 -/
inductive AfterRead (cfg : Config) (takeKey : Key → Bool) (minRevision : Int) (db : Db)
    (recs : List RevRecord) (call : AfterCall) (read : List RevRecord) (call' : AfterCall) : Prop
  | compacted (hc : AfterCompacted minRevision db) (hfail : call'.status = .failed .compacted)
      (hrev : call'.collector.compactRevision = versionstampToInt64 db.getCompactRev)
  | continued (hnc : ¬ AfterCompacted minRevision db) (t : List RevRecord) (ht : t ≠ [])
      (hinv : AfterInv cfg takeKey minRevision recs call' (read ++ t))
      (hlatest : call'.collector.latestRev
        = if call.collector.latestRev = 0 then db.getLatestRev cfg else 0)
  | finished (hnc : ¬ AfterCompacted minRevision db) (t : List RevRecord)
      (hp : read ++ t <+: afterTodo recs minRevision none)
      (hevents : call'.collector.events = eventsOf cfg takeKey recs (read ++ t))
      (hdone : call'.status = .done)
      (hrest : ∀ r ∈ afterTodo recs minRevision none,
        r ∈ read ++ t ∨ call.collector.beyond r.rev)

theorem AfterInv.batch {takeKey : Key → Bool} {minRevision : Int} {call : AfterCall}
    {read : List RevRecord} (h : db.Holds recs)
    (hi : AfterInv cfg takeKey minRevision recs call read) (n : Nat) :
    (call.batch (AfterCollector.processor cfg (afterAllParams minRevision takeKey))
      (afterRange minRevision) n db).2 = db ∧
    AfterRead cfg takeKey minRevision db recs call read
      (call.batch (AfterCollector.processor cfg (afterAllParams minRevision takeKey))
        (afterRange minRevision) n db).1 := by
  obtain ⟨hdb, hout⟩ := after_batch cfg takeKey minRevision h hi.begin_ n
  refine ⟨hdb, ?_⟩
  have hsplit := append_afterTodo h.sorted hi.isPrefix
  have hpre := append_take_isPrefix h.sorted hi.isPrefix
  generalize afterTodo recs minRevision (lastVisited read) = todo at hout hsplit hpre
  cases hout with
  | compacted hc hfail hrev m ht => exact .compacted hc hfail hrev
  | continued hnc hn ht hrun hbegin =>
    have hne : todo.take (n + 1) ≠ [] :=
      List.ne_nil_of_length_pos (by rw [List.length_take]; omega)
    refine .continued hnc (todo.take (n + 1)) hne ⟨hrun, ?_, hpre _, ?_⟩ ht.latestRev
    · rw [hbegin, lastVisited_append_of_ne_nil read hne]
    · rw [ht.events, hi.events, eventsOf_append]
  | finished hnc m ht hdone hrest =>
    refine .finished hnc (todo.take m) (hpre m) ?_ hdone fun r hr => ?_
    · rw [ht.events, hi.events, eventsOf_append]
    · rw [← hsplit, ← List.take_append_drop m todo, ← List.append_assoc] at hr
      exact (List.mem_append.mp hr).imp_right (hrest r)

theorem afterInv_start (cfg : Config) (takeKey : Key → Bool) (minRevision : Int)
    (recs : List RevRecord) : AfterInv cfg takeKey minRevision recs (.start newAfterCollector) [] :=
  ⟨rfl, rfl, List.nil_prefix, rfl⟩

/-! ## ほかの transaction が挟まらない afterAll -/

/-- 途中の `afterAll` を最後まで走らせた結果。 -/
inductive AfterResultOf (cfg : Config) (takeKey : Key → Bool) (minRevision : Int) (db : Db)
    (recs : List RevRecord) (call : AfterCall) : Prop
  | compacted (hc : AfterCompacted minRevision db) (hfail : call.status = .failed .compacted)
      (hrev : call.collector.compactRevision = versionstampToInt64 db.getCompactRev)
  | done (hnc : ¬ AfterCompacted minRevision db) (hdone : call.status = .done)
      (hevents : call.collector.events
        = eventsOf cfg takeKey recs (afterTodo recs minRevision none))

/-- 最新の revision を超える record はない。 -/
theorem not_beyond (hb : db.Bounded cfg recs) {c : AfterCollector}
    (hc : c.latestRev = 0 ∨ c.latestRev = db.getLatestRev cfg) {r : RevRecord} (hr : r ∈ recs) :
    ¬ c.beyond r.rev := by
  rintro ⟨h0, hlt⟩
  rw [hc.resolve_left h0] at hlt
  exact absurd (hb.le r hr) (not_le.mpr hlt)

theorem processRange_after {takeKey : Key → Bool} {minRevision : Int} (h : db.Holds recs)
    (hb : db.Bounded cfg recs) (splits : Nat → Nat) : ∀ (fuel i : Nat) {call : AfterCall}
    {read : List RevRecord}, AfterInv cfg takeKey minRevision recs call read →
    (call.collector.latestRev = 0 ∨ call.collector.latestRev = db.getLatestRev cfg) →
    (afterTodo recs minRevision none).length < read.length + fuel →
    AfterResultOf cfg takeKey minRevision db recs
      (processRange (AfterCollector.processor cfg (afterAllParams minRevision takeKey))
        (afterRange minRevision) splits fuel i call db).1
  | 0, i, call, read, hi, _, hfuel => absurd hi.isPrefix.length_le (by omega)
  | fuel + 1, i, call, read, hi, hlatest, hfuel => by
    obtain ⟨hdb, hout⟩ := hi.batch h (splits i)
    rw [processRange, if_pos hi.running]
    simp only
    rw [hdb]
    generalize (call.batch (AfterCollector.processor cfg (afterAllParams minRevision takeKey))
      (afterRange minRevision) (splits i) db).1 = call' at hout
    cases hout with
    | compacted hc hfail hrev =>
      rw [processRange_of_ne_running (by rw [hfail]; decide)]
      exact .compacted hc hfail hrev
    | continued hnc t ht hinv hl =>
      refine processRange_after h hb splits fuel (i + 1) hinv ?_ ?_
      · rw [hl]
        split
        · exact Or.inr rfl
        · exact Or.inl rfl
      · have := List.length_pos_iff.mpr ht
        rw [List.length_append]
        omega
    | finished hnc t hp hevents hdone hrest =>
      rw [processRange_of_ne_running (by rw [hdone]; decide)]
      -- 読み残した record はないから、読んだ列はすべてである
      have hsorted := afterTodo_sorted h.sorted minRevision none
      have hall : read ++ t = afterTodo recs minRevision none := by
        refine SortedBy.eq_of_mem_iff (hsorted.sublist hp.sublist) hsorted fun r =>
          ⟨fun hr => hp.subset hr, fun hr => ?_⟩
        exact (hrest r hr).resolve_right (not_beyond hb hlatest (mem_afterTodo.mp hr).1)
      exact .done hnc hdone (hall ▸ hevents)

end

end KubeFdb
