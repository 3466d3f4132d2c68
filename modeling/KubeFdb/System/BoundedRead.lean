import KubeFdb.Properties.After
import KubeFdb.System.Watermark

/-!
# watch の最初の読み出しの上限

`afterAll` は、最初の batch が見た最新の revision `V` までの event を返すはずである。`V` を持つのは
`latestRev` だが、`postBatch` は batch ごとに `batchLatestRev` を写す。`endBatch` が `batchLatestRev` を
書くのは `latestRev` が 0 のときだけなので、`latestRev` は batch ごとに `V`、0、新しい最新、0、… となる。

* 三つ目の batch には上限がなく、`V` より新しい record も読む
* 二つ目の batch で event なしに終わると、`currentRevision` は 0 になる
* `ErrCompacted` でも `postBatch` は走り、集めた event は残る。`currentRevision` は最後の event の
  revision だから、`compactRevision` より古いことがある

どの batch もこれらに当たらない run（`KeepsBound`）では、`afterAll` は `V` までの snapshot の読み出しである
（`afterAll_bounded`）。
-/

namespace KubeFdb

open Tuple

/-- store と、途中の `afterAll`。 -/
structure AfterSys where
  store : Store
  call : AfterCall
  /-- 最初の batch が読んだ store の ghost。 -/
  snapshot : Option Store
  /-- 最初の batch の後、読み終わるまでに compaction の batch が commit したかの ghost。 -/
  compacted : Bool

inductive AfterLabel where
  | store (a : StoreLabel)
  | batch (n : Nat)
deriving DecidableEq

def AfterSys.init : AfterSys := ⟨.init, .start newAfterCollector, none, false⟩

def StoreLabel.isCompactBatch : StoreLabel → Bool
  | .compactBatch _ _ _ _ => true
  | _ => false

/-- 一手。batch の transaction は store を変えない。 -/
def AfterSys.step (cfg : Config) (minRevision : Int) (takeKey : Key → Bool) (s : AfterSys) :
    AfterLabel → Option AfterSys
  | .store a => (s.store.step cfg a).map (fun t =>
      { s with
        store := t
        compacted := s.compacted ||
          (s.snapshot.isSome && decide (s.call.status = .running) && a.isCompactBatch) })
  | .batch n =>
    if s.call.status = .running then
      some { s with
        call := (s.call.batch (AfterCollector.processor cfg (afterAllParams minRevision takeKey))
          (afterRange minRevision) n s.store.db).1
        snapshot := s.snapshot.or (some s.store) }
    else none

/-- 最初の batch が見た最新の revision。まだなら、いま読めば見るものである。 -/
def AfterSys.firstRev (cfg : Config) (s : AfterSys) : Int :=
  (s.snapshot.getD s.store).db.getLatestRev cfg

/-! ## 上限までの読み出し -/

/-- `minRevision` の後で `V` までの、合う record。 -/
def matchedUpTo (minRevision V : Int) (takeKey : Key → Bool) (recs : List RevRecord) :
    List RevRecord :=
  recs.filter (fun r => decide (minRevision < r.revision) && (decide (r.revision ≤ V) && takeKey r.key))

/-- `afterAll` が返したものが、最初の batch の時点の読み出しであること。 -/
structure BoundedRead (cfg : Config) (minRevision : Int) (takeKey : Key → Bool) (s : AfterSys) :
    Prop where
  /-- compaction が挟まらずに成功した。event は record の revision の順に並ぶ。 -/
  done : s.call.status = .done → s.compacted = false →
    ∃ st recs, s.snapshot = some st ∧ st.db.Holds recs ∧
      Reports cfg s.call.collector.toResult.events
        (matchedUpTo minRevision (st.db.getLatestRev cfg) takeKey recs) ∧
      (s.call.collector.toResult.events = [] →
        s.call.collector.toResult.currentRevision = st.db.getLatestRev cfg)
  failed : s.call.status = .failed .compacted →
    s.call.collector.toResult.compactRevision ≤ s.call.collector.toResult.currentRevision ∧
    minRevision < s.call.collector.toResult.compactRevision

/-- watermark が `minRevision` を超えている batch の手の前の条件。watermark 以上の合う record を、もう
集めたか、この batch が読む。または、合う record がなく、上限もない。 -/
def AfterSys.MeetsWatermark (minRevision : Int) (takeKey : Key → Bool) (s : AfterSys) (n : Nat) :
    Prop :=
  (∃ e ∈ s.call.collector.events,
    versionstampToInt64 s.store.db.getCompactRev ≤ e.kv.modRevision) ∨
  (∃ h ∈ (unreadLog minRevision s.store.db s.call.beginKey).take (n + 1), takeKey h.2.key = true ∧
    versionstampToInt64 s.store.db.getCompactRev ≤ versionstampToInt64 h.1 ∧
    ¬ s.call.collector.beyond h.1) ∨
  (s.call.collector.latestRev = 0 ∧ s.call.collector.events = [] ∧
    ∀ h ∈ unreadLog minRevision s.store.db s.call.beginKey, takeKey h.2.key = false)

/-- ほかの batch の手の前の条件。最初の batch では、`minRevision` についての部分のほかは自ずと成り立つ。 -/
structure AfterSys.StaysBounded (cfg : Config) (minRevision : Int) (takeKey : Key → Bool)
    (s : AfterSys) (n : Nat) : Prop where
  /-- 負の `minRevision` で読むなら、合う record はない。 -/
  negative : minRevision < 0 →
    ∀ e ∈ s.store.db.byKeyAndRevision.entries, takeKey e.1.key = false
  /-- 上限が `V` でない batch は、`V` より新しい合う record に届かない。 -/
  capped : s.call.collector.latestRev ≠ s.firstRev cfg →
    ∀ h ∈ (unreadLog minRevision s.store.db s.call.beginKey).take (n + 1),
      takeKey h.2.key = true → versionstampToInt64 h.1 ≤ s.firstRev cfg
  /-- `V` までに合う record があるか、上限がなく `V` がいまも最新である。 -/
  current : s.call.collector.events ≠ [] ∨
    (∃ h ∈ unreadLog minRevision s.store.db s.call.beginKey,
      takeKey h.2.key = true ∧ versionstampToInt64 h.1 ≤ s.firstRev cfg) ∨
    (s.call.collector.latestRev = 0 ∧ s.store.db.getLatestRev cfg = s.firstRev cfg)

/-- 手の前の条件。 -/
def KeepsBound (cfg : Config) (minRevision : Int) (takeKey : Key → Bool) (s : AfterSys) :
    AfterLabel → Prop
  | .store _ => True
  | .batch n =>
    (AfterCompacted minRevision s.store.db → s.MeetsWatermark minRevision takeKey n) ∧
    (¬ AfterCompacted minRevision s.store.db → s.compacted = false →
      s.StaysBounded cfg minRevision takeKey n)

instance (c : AfterCollector) (rev : Versionstamp) : Decidable (c.beyond rev) :=
  inferInstanceAs (Decidable (_ ∧ _))

instance (minRevision : Int) (takeKey : Key → Bool) (s : AfterSys) (n : Nat) :
    Decidable (s.MeetsWatermark minRevision takeKey n) :=
  inferInstanceAs (Decidable (_ ∨ _ ∨ _))

instance (cfg : Config) (minRevision : Int) (takeKey : Key → Bool) (s : AfterSys) (n : Nat) :
    Decidable (s.StaysBounded cfg minRevision takeKey n) :=
  decidable_of_iff
    ((minRevision < 0 → ∀ e ∈ s.store.db.byKeyAndRevision.entries, takeKey e.1.key = false) ∧
    (s.call.collector.latestRev ≠ s.firstRev cfg →
      ∀ h ∈ (unreadLog minRevision s.store.db s.call.beginKey).take (n + 1),
        takeKey h.2.key = true → versionstampToInt64 h.1 ≤ s.firstRev cfg) ∧
    (s.call.collector.events ≠ [] ∨
      (∃ h ∈ unreadLog minRevision s.store.db s.call.beginKey,
        takeKey h.2.key = true ∧ versionstampToInt64 h.1 ≤ s.firstRev cfg) ∨
      (s.call.collector.latestRev = 0 ∧ s.store.db.getLatestRev cfg = s.firstRev cfg)))
    ⟨fun h => ⟨h.1, h.2.1, h.2.2⟩, fun h => ⟨h.negative, h.capped, h.current⟩⟩

instance (cfg : Config) (minRevision : Int) (takeKey : Key → Bool) (s : AfterSys) :
    (a : AfterLabel) → Decidable (KeepsBound cfg minRevision takeKey s a)
  | .store _ => .isTrue trivial
  | .batch _ => inferInstanceAs (Decidable ((_ → _) ∧ (_ → _ → _)))

variable {cfg : Config} {minRevision V : Int} {takeKey : Key → Bool} {s : AfterSys} {st : Store}
  {recs recs₀ read : List RevRecord} {n m : Nat} {call' : AfterCall}

/-! ## 途中の読み出し -/

/-- compaction が挟まらないあいだの、最初の batch が読んだ列 `recs₀` との関係。 -/
structure SinceFirst (minRevision V : Int) (takeKey : Key → Bool) (recs recs₀ read : List RevRecord) :
    Prop where
  isPrefix : read <+: afterTodo recs minRevision none
  upTo : recs.filter (fun r => decide (r.revision ≤ V)) = recs₀
  bound : ∀ r ∈ read, takeKey r.key = true → r.revision ≤ V

/-- 途中の `afterAll` が `read` を読み終えていること。`read` の record は、もう消えていてよい。 -/
structure AfterSys.Reading (cfg : Config) (minRevision : Int) (takeKey : Key → Bool) (s : AfterSys)
    (st : Store) (recs recs₀ read : List RevRecord) : Prop where
  running : s.call.status = .running
  begin_ : s.call.beginKey = (lastVisited read).map (chunkKey · maxInt64)
  sorted : SortedBy RevRecord.rev read
  committed : ∀ r ∈ read, r ∈ s.store.committed
  events : Reports cfg s.call.collector.events (read.filter (fun r => takeKey r.key))
  first : s.snapshot.getD s.store = st
  snapshot : st.Inv cfg recs₀
  latest : st.db.getLatestRev cfg ≤ s.store.db.getLatestRev cfg
  cap : s.call.collector.latestRev = 0 ∨ st.db.getLatestRev cfg ≤ s.call.collector.latestRev
  since : s.compacted = false →
    SinceFirst minRevision (st.db.getLatestRev cfg) takeKey recs recs₀ read

theorem sorted_append_afterTodo (hs : SortedBy RevRecord.rev recs) (hr : SortedBy RevRecord.rev read)
    (minRevision : Int) :
    SortedBy RevRecord.rev (read ++ afterTodo recs minRevision (lastVisited read)) := by
  refine SortedBy.append_iff.mpr ⟨hr, afterTodo_sorted hs _ _, fun a ha b hb => ?_⟩
  have hafter := (mem_afterTodo.mp hb).2.1
  cases hl : lastVisited read with
  | none =>
    rw [lastVisited, Option.map_eq_none_iff, List.getLast?_eq_none_iff] at hl
    rw [hl] at ha
    exact absurd ha List.not_mem_nil
  | some l => exact (le_lastVisited hr hl a ha).trans_lt (hafter l hl)

/-- event がすべて `rs` の record のものなら、`currentRevision` は最後の record の revision である。 -/
theorem currentRevision_eq {c : AfterCollector} {rs : List RevRecord} (h : Reports cfg c.events rs) :
    c.toResult.currentRevision = (rs.getLast?.map RevRecord.revision).getD c.latestRev := by
  have hlast : c.events.getLast?.map (fun e => e.kv.modRevision)
      = rs.getLast?.map RevRecord.revision := by
    rw [← List.getLast?_map, h.modRevision, List.getLast?_map]
  rw [← hlast]
  unfold AfterCollector.toResult
  cases c.events.getLast? with
  | none => rfl
  | some e => rfl

namespace AfterSys.Reading

variable (h : s.Reading cfg minRevision takeKey st recs recs₀ read) (hs : s.store.Inv cfg recs)
  (ht : AfterTaken cfg takeKey s.store.db recs n s.call
    (afterTodo recs minRevision (lastVisited read)) m call')
include h

theorem firstRev_eq : s.firstRev cfg = st.db.getLatestRev cfg := by
  unfold AfterSys.firstRev
  rw [h.first]

include hs in
theorem unread_eq : unreadLog minRevision s.store.db s.call.beginKey
    = (afterTodo recs minRevision (lastVisited read)).map
      (fun r => (r.rev, ByRevision.recordToTuple r.record)) := by
  rw [h.begin_, unreadLog_eq hs.tracks.holds]

include ht

theorem taken_events : Reports cfg call'.collector.events
    ((read ++ (afterTodo recs minRevision (lastVisited read)).take m).filter
      (fun r => takeKey r.key)) := by
  rw [ht.events, List.filter_append]
  exact h.events.append (reports_eventsOf cfg takeKey recs _)

include hs

/-- 読んだ合う record のどれかが `W` 以上なら、`currentRevision` も `W` 以上である。 -/
theorem le_currentRevision {W : Int} {r : RevRecord}
    (hr : r ∈ read ++ (afterTodo recs minRevision (lastVisited read)).take m)
    (hk : takeKey r.key = true) (hW : W ≤ r.revision) :
    W ≤ call'.collector.toResult.currentRevision := by
  rw [currentRevision_eq (h.taken_events ht)]
  have hsorted := (sorted_append_afterTodo hs.tracks.holds.sorted h.sorted minRevision).sublist
    ((List.take_sublist m _).append_left read)
  have hwf : ∀ x ∈ read ++ (afterTodo recs minRevision (lastVisited read)).take m, x.Wf := by
    intro x hx
    rcases List.mem_append.mp hx with hx | hx
    · exact hs.tracks.wf x (h.committed x hx)
    · exact hs.tracks.holds.wf x (mem_afterTodo.mp (List.mem_of_mem_take hx)).1
  generalize read ++ (afterTodo recs minRevision (lastVisited read)).take m = rs at hr hsorted hwf ⊢
  have hrm : r ∈ rs.filter (fun r => takeKey r.key) := List.mem_filter.mpr ⟨hr, hk⟩
  cases hl : (rs.filter (fun r => takeKey r.key)).getLast? with
  | none =>
    rw [List.getLast?_eq_none_iff.mp hl] at hrm
    exact absurd hrm List.not_mem_nil
  | some z =>
    -- 読んだ列は昇順だから、最後の record の revision が最大である
    obtain ⟨hz, hmax⟩ := (hsorted.filter _).getLast?_eq_some_iff.mp hl
    exact hW.trans (((hwf r hr).rev.le_iff (hwf z (List.mem_of_mem_filter hz)).rev).mp (hmax r hrm))

/-- 条件を満たす batch が `ErrCompacted` で終わるとき。 -/
theorem failed (hle : versionstampToInt64 s.store.db.getCompactRev ≤ s.store.db.getLatestRev cfg)
    (hm : s.MeetsWatermark minRevision takeKey n) :
    versionstampToInt64 s.store.db.getCompactRev ≤ call'.collector.toResult.currentRevision := by
  rcases hm with ⟨e, he, hW⟩ | ⟨x, hx, hk, hW, hin⟩ | ⟨hcap, hev, hno⟩
  · have hmem : e.kv.modRevision ∈ (read.filter (fun r => takeKey r.key)).map RevRecord.revision := by
      rw [← h.events.modRevision]
      exact List.mem_map_of_mem he
    obtain ⟨r, hr, hrev⟩ := List.mem_map.mp hmem
    obtain ⟨hr, hk⟩ := List.mem_filter.mp hr
    exact h.le_currentRevision hs ht (List.mem_append_left _ hr) hk (hrev ▸ hW)
  · rw [h.unread_eq hs, ← List.map_take] at hx
    obtain ⟨r, hr, rfl⟩ := List.mem_map.mp hx
    exact h.le_currentRevision hs ht
      (List.mem_append_right _ ((ht.rest r hr).resolve_right hin)) hk hW
  · -- 合う record がないから、`currentRevision` はこの batch が見た最新である
    rw [h.unread_eq hs, List.forall_mem_map] at hno
    have hnone : call'.collector.events = [] := by
      rw [ht.events, hev, List.nil_append, eventsOf, List.map_eq_nil_iff, List.filter_eq_nil_iff]
      intro r hr
      rw [show takeKey r.key = false from hno r (List.mem_of_mem_take hr)]
      decide
    unfold AfterCollector.toResult
    simp only [hnone, List.getLast?_nil, ht.latestRev, if_pos hcap]
    exact hle

/-- 条件を満たす batch が読む合う record は、`V` までのものである。 -/
theorem taken_bound (hb : s.StaysBounded cfg minRevision takeKey n) :
    ∀ r ∈ (afterTodo recs minRevision (lastVisited read)).take m, takeKey r.key = true →
      r.revision ≤ st.db.getLatestRev cfg := by
  intro r hr hk
  by_cases hcap : s.call.collector.latestRev = st.db.getLatestRev cfg
  · have hin := ht.within r hr
    have hpos := h.snapshot.bounded.pos
    unfold AfterCollector.beyond at hin
    rw [hcap] at hin
    exact not_lt.mp fun hlt => hin ⟨hpos.ne', hlt⟩
  · rw [← h.firstRev_eq] at hcap ⊢
    refine hb.capped hcap (r.rev, ByRevision.recordToTuple r.record) ?_ hk
    rw [h.unread_eq hs, ← List.map_take]
    exact List.mem_map_of_mem (List.take_subset_take_left _ ht.le hr)

section

variable (hmin : -2 ^ 63 ≤ minRevision) (hmax : minRevision < 2 ^ 63) (hcomp : s.compacted = false)
  (hb : s.StaysBounded cfg minRevision takeKey n)
  (hrest : ∀ r ∈ (afterTodo recs minRevision (lastVisited read)).drop m,
    s.call.collector.beyond r.rev)
include hrest

omit hs ht in
/-- 読み残した record は `V` より新しい。 -/
theorem lt_of_left {r : RevRecord}
    (hr : r ∈ (afterTodo recs minRevision (lastVisited read)).drop m) :
    st.db.getLatestRev cfg < r.revision := by
  obtain ⟨h0, hlt⟩ := hrest r hr
  exact (h.cap.resolve_left h0).trans_lt hlt

include hmin hmax hcomp hb

/-- 読み終えたとき、読んだ合う record は、`V` までの合う record である。 -/
theorem mem_taken_iff (r : RevRecord) :
    r ∈ read ++ (afterTodo recs minRevision (lastVisited read)).take m ∧ takeKey r.key = true ↔
      r ∈ recs ∧ minRevision < r.revision ∧ r.revision ≤ st.db.getLatestRev cfg ∧
        takeKey r.key = true := by
  obtain ⟨hpre, -, hbound⟩ := h.since hcomp
  have hh := hs.tracks.holds
  constructor
  · rintro ⟨hr, hk⟩
    have htodo := (append_take_isPrefix hh.sorted hpre m).subset hr
    have h0 := nonneg_of_mem_afterTodo hh.wf hmin htodo
    obtain ⟨hrecs, -, hlt⟩ := mem_afterTodo.mp htodo
    refine ⟨hrecs, ((hh.wf r hrecs).int64_lt_iff h0 hmax).mp hlt, ?_, hk⟩
    exact (List.mem_append.mp hr).elim (hbound r · hk) (h.taken_bound hs ht hb r · hk)
  · rintro ⟨hrecs, hlt, hle, hk⟩
    have h0 : 0 ≤ minRevision := by
      by_contra hneg
      have hno := hh.forall_index.mp (hb.negative (not_le.mp hneg)) r hrecs
      rw [show takeKey r.key = false from hno] at hk
      cases hk
    have htodo : r ∈ afterTodo recs minRevision none :=
      mem_afterTodo.mpr ⟨hrecs, by simp, ((hh.wf r hrecs).int64_lt_iff h0 hmax).mpr hlt⟩
    rw [← append_afterTodo hh.sorted hpre,
      ← List.take_append_drop m (afterTodo recs minRevision (lastVisited read)),
      ← List.append_assoc] at htodo
    exact ⟨(List.mem_append.mp htodo).resolve_right
      fun hd => absurd (h.lt_of_left hrest hd) (not_lt.mpr hle), hk⟩

theorem taken_eq_matched :
    (read ++ (afterTodo recs minRevision (lastVisited read)).take m).filter (fun r => takeKey r.key)
      = matchedUpTo minRevision (st.db.getLatestRev cfg) takeKey recs₀ := by
  have hsorted := (sorted_append_afterTodo hs.tracks.holds.sorted h.sorted minRevision).sublist
    ((List.take_sublist m _).append_left read)
  refine SortedBy.eq_of_mem_iff (hsorted.filter _) (h.snapshot.tracks.holds.sorted.filter _)
    fun r => ?_
  rw [List.mem_filter, h.mem_taken_iff hs ht hmin hmax hcomp hb hrest, matchedUpTo,
    List.mem_filter, ← (h.since hcomp).upTo, List.mem_filter]
  simp only [decide_eq_true_eq, Bool.and_eq_true]
  exact ⟨fun ⟨hr, hlt, hle, hk⟩ => ⟨⟨hr, hle⟩, hlt, hle, hk⟩, fun ⟨⟨hr, _⟩, hm⟩ => ⟨hr, hm⟩⟩

/-- 条件を満たす batch で読み終えたとき。 -/
theorem done :
    Reports cfg call'.collector.events
      (matchedUpTo minRevision (st.db.getLatestRev cfg) takeKey recs₀) ∧
    (call'.collector.events = [] →
      call'.collector.toResult.currentRevision = st.db.getLatestRev cfg) := by
  have hrep := h.taken_events ht
  refine ⟨h.taken_eq_matched hs ht hmin hmax hcomp hb hrest ▸ hrep, fun hnil => ?_⟩
  have hcur := currentRevision_eq hrep
  rw [hnil] at hrep
  have hempty := List.map_eq_nil_iff.mp hrep.symm
  rw [hcur, hempty]
  rcases hb.current with hne | ⟨x, hx, hk, hle⟩ | ⟨hcap, hlat⟩
  · exact absurd (List.append_eq_nil_iff.mp (ht.events.symm.trans hnil)).1 hne
  · -- `V` までの合う record が残っていたなら、event がある
    rw [h.unread_eq hs] at hx
    obtain ⟨r, hr, rfl⟩ := List.mem_map.mp hx
    rw [h.firstRev_eq] at hle
    rw [← List.take_append_drop m (afterTodo recs minRevision (lastVisited read))] at hr
    have hr := (List.mem_append.mp hr).resolve_right
      fun hd => absurd (h.lt_of_left hrest hd) (not_lt.mpr hle)
    exact absurd (List.mem_filter.mpr ⟨List.mem_append_right _ hr, hk⟩) (hempty ▸ List.not_mem_nil)
  · rw [← h.firstRev_eq, ← hlat]
    exact ht.latestRev.trans (if_pos hcap)

end

end AfterSys.Reading

theorem AfterSys.Reading.snapshot_or (h : s.Reading cfg minRevision takeKey st recs recs₀ read) :
    s.snapshot.or (some s.store) = some st := by
  rw [← h.first]
  cases s.snapshot with
  | none => rfl
  | some st => rfl

/-- 時間で切れた batch の後も、途中の読み出しである。 -/
theorem AfterSys.Reading.continued (h : s.Reading cfg minRevision takeKey st recs recs₀ read)
    (hs : s.store.Inv cfg recs) (hn : n < (afterTodo recs minRevision (lastVisited read)).length)
    (ht : AfterTaken cfg takeKey s.store.db recs n s.call
      (afterTodo recs minRevision (lastVisited read)) (n + 1) call')
    (hrun : call'.status = .running)
    (hbegin : call'.beginKey
      = (lastVisited ((afterTodo recs minRevision (lastVisited read)).take (n + 1))).map
        (chunkKey · maxInt64))
    (hb : s.compacted = false → s.StaysBounded cfg minRevision takeKey n) :
    AfterSys.Reading cfg minRevision takeKey
      { s with call := call', snapshot := s.snapshot.or (some s.store) } st recs recs₀
      (read ++ (afterTodo recs minRevision (lastVisited read)).take (n + 1)) where
  running := hrun
  begin_ := by
    have hne : (afterTodo recs minRevision (lastVisited read)).take (n + 1) ≠ [] :=
      List.ne_nil_of_length_pos (by rw [List.length_take]; omega)
    rw [lastVisited_append_of_ne_nil read hne]
    exact hbegin
  sorted := (sorted_append_afterTodo hs.tracks.holds.sorted h.sorted minRevision).sublist
    ((List.take_sublist _ _).append_left read)
  committed r hr := by
    rcases List.mem_append.mp hr with hr | hr
    · exact h.committed r hr
    · exact hs.tracks.sub r (mem_afterTodo.mp (List.mem_of_mem_take hr)).1
  events := h.taken_events ht
  first := by rw [h.snapshot_or]; rfl
  snapshot := h.snapshot
  latest := h.latest
  cap := by
    rw [ht.latestRev]
    split
    · exact Or.inr h.latest
    · exact Or.inl rfl
  since hcomp := by
    obtain ⟨hpre, hupto, hbound⟩ := h.since hcomp
    refine ⟨append_take_isPrefix hs.tracks.holds.sorted hpre _, hupto, fun r hr hk => ?_⟩
    rcases List.mem_append.mp hr with hr | hr
    · exact hbound r hr hk
    · exact h.taken_bound hs ht (hb hcomp) r hr hk

/-- run の途中の `afterAll`。 -/
inductive AfterSys.Phase (cfg : Config) (minRevision : Int) (takeKey : Key → Bool) (s : AfterSys)
    (recs : List RevRecord) : Prop
  | fresh (hsnap : s.snapshot = none) (hcall : s.call = .start newAfterCollector)
      (hcomp : s.compacted = false)
  | reading (st : Store) (recs₀ read : List RevRecord) (hsnap : s.snapshot = some st)
      (h : s.Reading cfg minRevision takeKey st recs recs₀ read)
  | ended (hne : s.call.status ≠ .running) (h : BoundedRead cfg minRevision takeKey s)

/-- 最初の batch の前も、何も読んでいない途中の読み出しである。 -/
theorem AfterSys.reading_fresh (hs : s.store.Inv cfg recs) (hsnap : s.snapshot = none)
    (hcall : s.call = .start newAfterCollector) :
    s.Reading cfg minRevision takeKey s.store recs recs [] where
  running := by rw [hcall]; rfl
  begin_ := by rw [hcall]; rfl
  sorted := SortedBy.nil
  committed := by simp
  events := by rw [hcall]; exact reports_nil
  first := by rw [hsnap]; rfl
  snapshot := hs
  latest := le_rfl
  cap := Or.inl (by rw [hcall]; rfl)
  since _ :=
    { isPrefix := List.nil_prefix
      upTo := List.filter_eq_self.mpr fun r hr => decide_eq_true (hs.boundedRecs.le r hr)
      bound := by simp }

theorem AfterSys.phase_batch (hmin : -2 ^ 63 ≤ minRevision) (hmax : minRevision < 2 ^ 63)
    (hs : s.store.Inv cfg recs)
    (hle : versionstampToInt64 s.store.db.getCompactRev ≤ s.store.db.getLatestRev cfg)
    (hp : s.Phase cfg minRevision takeKey recs) (hrun : s.call.status = .running) (n : Nat)
    (hok : KeepsBound cfg minRevision takeKey s (.batch n)) :
    AfterSys.Phase cfg minRevision takeKey
      { s with
        call := (s.call.batch (AfterCollector.processor cfg (afterAllParams minRevision takeKey))
          (afterRange minRevision) n s.store.db).1
        snapshot := s.snapshot.or (some s.store) } recs := by
  obtain ⟨st, recs₀, read, h⟩ :
      ∃ st recs₀ read, s.Reading cfg minRevision takeKey st recs recs₀ read := by
    cases hp with
    | fresh hsnap hcall hcomp => exact ⟨_, _, _, AfterSys.reading_fresh hs hsnap hcall⟩
    | reading st recs₀ read hsnap h => exact ⟨st, recs₀, read, h⟩
    | ended hne hb => exact absurd hrun hne
  obtain ⟨-, hout⟩ := after_batch cfg takeKey minRevision hs.tracks.holds h.begin_ n
  generalize (s.call.batch _ _ n s.store.db).1 = call' at hout
  cases hout with
  | compacted hc hfail hrev m ht =>
    refine .ended (by rw [hfail]; decide) ⟨fun hdone => ?_, fun _ => ?_⟩
    · rw [hfail] at hdone
      cases hdone
    · show call'.collector.compactRevision ≤ _ ∧ _ < call'.collector.compactRevision
      rw [hrev]
      exact ⟨h.failed hs ht hle (hok.1 hc), hc.2⟩
  | continued hnc hn ht hrun' hbegin =>
    exact .reading st recs₀ _ h.snapshot_or (h.continued hs hn ht hrun' hbegin (hok.2 hnc))
  | finished hnc m ht hdone hrest =>
    refine .ended (by rw [hdone]; decide) ⟨fun _ hcomp => ?_, fun hfail => ?_⟩
    · exact ⟨st, recs₀, h.snapshot_or, h.snapshot.tracks.holds,
        h.done hs ht hmin hmax hcomp (hok.2 hnc hcomp) hrest⟩
    · rw [hdone] at hfail
      cases hfail

/-- record を消さない手の後の、最初の batch が読んだ列との関係。 -/
theorem SinceFirst.effect {t : Store} {a : StoreLabel} {st' : Store} {recs' : List RevRecord}
    (h : t.Inv cfg recs) (he : Store.Effect cfg t recs a st' recs') (ha : a.isCompactBatch = false)
    (hV : V ≤ t.db.getLatestRev cfg) (hf : SinceFirst minRevision V takeKey recs recs₀ read) :
    SinceFirst minRevision V takeKey recs' recs₀ read := by
  cases he with
  | idle _ _ v hv hv63 calls hcalls => exact hf
  | wrote op lastWriteUUID uuid v record size hc hsize hw =>
    refine ⟨hf.isPrefix.trans ?_, ?_, hf.bound⟩
    · unfold afterTodo
      rw [List.filter_append]
      exact List.prefix_append _ _
    · -- 新しい record は `V` より新しい
      have hlt : V < (append cfg v uuid record size t.db).1.revision :=
        hV.trans_lt (incrementAndGet_spec h.bounded hc).2
      rw [List.filter_append, List.filter_singleton, decide_eq_false (not_le.mpr hlt)]
      exact (List.append_nil _).trans hf.upTo
  | compacted i n v known endRev c c' db' begin_ hc hi hrun hb hbatch heq => cases ha

theorem AfterSys.phase_store {t : Store} {a : StoreLabel} {recs' : List RevRecord}
    (hs : s.store.Inv cfg recs) (hp : s.Phase cfg minRevision takeKey recs)
    (he : Store.Effect cfg s.store recs a t recs') :
    AfterSys.Phase cfg minRevision takeKey
      { s with
        store := t
        compacted := s.compacted ||
          (s.snapshot.isSome && decide (s.call.status = .running) && a.isCompactBatch) } recs' := by
  cases hp with
  | fresh hsnap hcall hcomp =>
    refine .fresh hsnap hcall ?_
    rw [hcomp, hsnap]
    rfl
  | reading st recs₀ read hsnap h =>
    refine .reading st recs₀ read hsnap
      { running := h.running
        begin_ := h.begin_
        sorted := h.sorted
        committed := fun r hr => he.committed_isPrefix.subset (h.committed r hr)
        events := h.events
        first := by rw [hsnap]; rfl
        snapshot := h.snapshot
        latest := h.latest.trans (he.latest_le hs)
        cap := h.cap
        since := fun hcomp => ?_ }
    obtain ⟨hcomp, ha⟩ := Bool.or_eq_false_iff.mp hcomp
    rw [hsnap, h.running] at ha
    exact (h.since hcomp).effect hs he ha h.latest
  | ended hne hb =>
    have hflag : (s.compacted ||
        (s.snapshot.isSome && decide (s.call.status = .running) && a.isCompactBatch)) = s.compacted := by
      rw [decide_eq_false hne, Bool.and_false, Bool.false_and, Bool.or_false]
    rw [hflag]
    exact .ended hne ⟨hb.done, hb.failed⟩

/-- 条件を満たす run では、どの `minRevision` と鍵の選び方でも、どう batch に分かれてどんな commit と
compaction が挟まっても、`afterAll` は最初の batch が見た revision までの読み出しである。 -/
theorem afterAll_bounded (cfg : Config) {minRevision : Int} (hmin : -2 ^ 63 ≤ minRevision)
    (hmax : minRevision < 2 ^ 63) (takeKey : Key → Bool) {as : List AfterLabel} {s : AfterSys}
    (hrun : runSteps (AfterSys.step cfg minRevision takeKey) .init as = some s)
    (hok : StepsMeet (AfterSys.step cfg minRevision takeKey) (KeepsBound cfg minRevision takeKey)
      .init as) :
    BoundedRead cfg minRevision takeKey s := by
  have hphase := run_invariant_of (KeepsBound cfg minRevision takeKey)
    (P := fun s => ∃ recs, s.store.Inv cfg recs ∧
      versionstampToInt64 s.store.db.getCompactRev ≤ s.store.db.getLatestRev cfg ∧
      s.Phase cfg minRevision takeKey recs)
    ?_ ?_ hok hrun
  · obtain ⟨recs, -, -, hp⟩ := hphase
    have hrunning : s.call.status = .running → BoundedRead cfg minRevision takeKey s := by
      intro hr
      refine ⟨fun hd => ?_, fun hf => ?_⟩
      · rw [hr] at hd
        cases hd
      · rw [hr] at hf
        cases hf
    cases hp with
    | fresh hsnap hcall hcomp => exact hrunning (by rw [hcall]; rfl)
    | reading st recs₀ read hsnap h => exact hrunning h.running
    | ended hne hb => exact hb
  · rintro s a s' ⟨recs, h, hle, hp⟩ hok hs
    cases a with
    | store a =>
      obtain ⟨t, ht, rfl⟩ := Option.map_eq_some_iff.mp hs
      obtain ⟨recs', he, h'⟩ := Store.inv_step h ht
      exact ⟨recs', h', he.compactRev_le h hle, AfterSys.phase_store h hp he⟩
    | batch n =>
      simp only [AfterSys.step] at hs
      split at hs
      · next hrunning =>
        cases hs
        exact ⟨recs, h, hle, AfterSys.phase_batch hmin hmax h hle hp hrunning n hok⟩
      · cases hs
  · exact ⟨[], Store.init_inv cfg, (Store.init_inv cfg).bounded.pos.le, .fresh rfl rfl rfl⟩

/-- 一つ目の batch の後に `/d` が書かれ、二つ目の batch は上限で止まる。 -/
def cappedRun : List AfterLabel :=
  [.store (.write (.create [47, 97] [1] 0) 0 1 2), .store (.write (.create [47, 98] [2] 0) 0 2 3),
    .store (.write (.create [47, 99] [3] 0) 0 3 4), .batch 0,
    .store (.write (.create [47, 100] [4] 0) 0 4 5), .batch 5]

/-- 読み始める位置が、`/a` の消えた record より古い。 -/
def staleStartRun : List AfterLabel :=
  [.store (.write (.create [47, 97] [1] 0) 0 1 2), .store (.write (.update [47, 97] [2] 2 0) 0 2 3),
    .store (.startCompact 3), .store (.compactBatch 0 5 4 true), .batch 5]

theorem afterAll_bounded_of_capped :
    (∃ s, runSteps (AfterSys.step .default 0 (fun _ => true)) .init cappedRun = some s ∧
      s.call.status = .done ∧ s.compacted = false ∧ s.call.collector.events.length = 3 ∧
      BoundedRead .default 0 (fun _ => true) s) ∧
    (∃ s, runSteps (AfterSys.step .default 1 (fun _ => true)) .init staleStartRun = some s ∧
      s.call.status = .failed .compacted ∧ BoundedRead .default 1 (fun _ => true) s) := by
  constructor
  · have hok : StepsMeet (AfterSys.step .default 0 (fun _ => true))
        (KeepsBound .default 0 (fun _ => true)) .init cappedRun := by decide +kernel
    have h : (runSteps (AfterSys.step .default 0 (fun _ => true)) .init cappedRun).any (fun s =>
        decide (s.call.status = .done ∧ s.compacted = false ∧
          s.call.collector.events.length = 3)) = true := by decide +kernel
    obtain ⟨s, hs, hdone, hcomp, hlen⟩ := exists_of_any_decide h
    exact ⟨s, hs, hdone, hcomp, hlen,
      afterAll_bounded .default (by decide) (by decide) (fun _ => true) hs hok⟩
  · have hok : StepsMeet (AfterSys.step .default 1 (fun _ => true))
        (KeepsBound .default 1 (fun _ => true)) .init staleStartRun := by decide +kernel
    have h : (runSteps (AfterSys.step .default 1 (fun _ => true)) .init staleStartRun).any (fun s =>
        decide (s.call.status = .failed .compacted)) = true := by decide +kernel
    obtain ⟨s, hs, h⟩ := exists_of_any_decide h
    exact ⟨s, hs, h,
      afterAll_bounded .default (by decide) (by decide) (fun _ => true) hs hok⟩

/-- 二つ目の batch の後に `/d` が書かれる。三つ目の batch には上限がない。 -/
def uncappedRun : List AfterLabel :=
  [.store (.write (.create [47, 97] [1] 0) 0 1 2), .store (.write (.create [47, 98] [2] 0) 0 2 3),
    .store (.write (.create [47, 99] [3] 0) 0 3 4), .batch 0, .batch 0,
    .store (.write (.create [47, 100] [4] 0) 0 4 5), .batch 5]

/-- 最初の batch が見た最新は 4 だが、revision 5 の event を返す。 -/
theorem third_batch_uncapped :
    ∃ s, runSteps (AfterSys.step .default 0 (fun _ => true)) .init uncappedRun = some s ∧
      ¬ BoundedRead .default 0 (fun _ => true) s := by
  have h : (runSteps (AfterSys.step .default 0 (fun _ => true)) .init uncappedRun).any (fun s =>
      decide (s.call.status = .done ∧ s.compacted = false ∧
        s.snapshot.map (fun st => st.db.getLatestRev .default) = some 4 ∧
        5 ∈ s.call.collector.events.map (fun e => e.kv.modRevision))) = true := by decide +kernel
  obtain ⟨s, hs, hdone, hcomp, hV, hmem⟩ := exists_of_any_decide h
  refine ⟨s, hs, fun hbound => ?_⟩
  obtain ⟨st, recs, hsnap, -, hrep, -⟩ := hbound.done hdone hcomp
  rw [hsnap] at hV
  have hV : st.db.getLatestRev .default = 4 := Option.some.inj hV
  have hrevs : s.call.collector.events.map (fun e => e.kv.modRevision) = _ := hrep.modRevision
  rw [hrevs] at hmem
  obtain ⟨r, hr, hrev⟩ := List.mem_map.mp hmem
  have hle := (Bool.and_eq_true_iff.mp (Bool.and_eq_true_iff.mp (List.mem_filter.mp hr).2).2).1
  have hle := of_decide_eq_true hle
  omega

end KubeFdb
