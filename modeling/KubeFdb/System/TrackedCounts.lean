import KubeFdb.Properties.LiveKeys
import KubeFdb.System.PollLoop
import KubeFdb.System.SnapshotScan

/-!
# 追跡した数と生きている鍵

tracker の entry は、cursor の revision で生きている鍵の数を持つはずである。`Count` は走査の revision を
`seedRev` として数を入れ、poll の loop はそれより後ろの event だけを反映するので、loop が走査より遅れて
いるときは正しい。loop が走査を追い越しているときは違う。走査の後に作られた鍵の event を、entry が
入る前に loop が反映し終えていると、その event は二度と数えられない。

entry を入れるときに、反映し終えた event の作成と削除が釣り合っている run（`SeedsBalanced`）では、
数はいつも正しい（`tracked_counts_exact`）。
-/

namespace KubeFdb

open Tuple

/-- 途中の `Count`。 -/
structure CountRun where
  call : CountCall
  /-- 最初の batch が読んだ store の ghost。 -/
  snapshot : Option Store

/-- store と poll の loop と、途中の `Count`。 -/
structure TrackerSys where
  shim : Shim
  calls : List CountRun

def TrackerSys.init : TrackerSys := ⟨.init, []⟩

inductive TrackerLabel where
  | shim (a : ShimLabel)
  /-- `Count` が tracker を見て、走査を始める。 -/
  | start (prefix_ startKey : Key) (revision : Int)
  | batch (i n : Nat)
  /-- 走査を終えた `Count` が、tracker に入れて返る。 -/
  | finish (i : Nat)
deriving DecidableEq

/-- compaction の手。 -/
def TrackerLabel.compacts : TrackerLabel → Bool
  | .shim (.store a) => !a.isClient
  | _ => false

def TrackerSys.step (cfg : Config) (s : TrackerSys) : TrackerLabel → Option TrackerSys
  | .shim a => (s.shim.step cfg a).map (fun t => { s with shim := t })
  | .start prefix_ startKey revision =>
    match s.shim.poll.startCount prefix_ startKey revision with
    | .scanning c => some { s with calls := s.calls ++ [⟨c, none⟩] }
    | .cached _ _ => some s
    | .failed _ => some s
  | .batch i n =>
    match s.calls[i]? with
    | some c =>
      if c.call.scan.status = .running then
        some { s with
          calls := s.calls.set i
            ⟨c.call.batch cfg n s.shim.store.db, c.snapshot.or (some s.shim.store)⟩ }
      else none
    | none => none
  | .finish i =>
    match s.calls[i]? with
    | some c =>
      if c.call.scan.status = .running then none
      else
        some
          { shim := { s.shim with
              poll := { s.shim.poll with counts := (c.call.finish s.shim.poll.counts).2 } }
            calls := s.calls.eraseIdx i }
    | none => none

namespace Poll

/-- tracker に反映した event。 -/
def appliedEvents (p : Poll) : List Event :=
  match p.pc with
  | .applied events => p.sent.flatten ++ events
  | _ => p.sent.flatten

/-- tracker に反映した revision。 -/
def appliedTo (p : Poll) : Int :=
  match p.pc with
  | .applied events => lastModRevision events p.lastWatchRev
  | .handed events => lastModRevision events p.lastWatchRev
  | _ => p.cursor

/-- loop が走っていて、反映した batch の分だけ cursor が遅れている、ということがないこと。 -/
def settled (p : Poll) : Bool :=
  match p.pc with
  | .top => true
  | .fetched _ _ => true
  | _ => false

end Poll

/-- entry を入れる手の前の条件。反映し終えた event のうち、走査の revision より後ろで prefix に合う
ものは、作成と削除が同じ数である。 -/
def SeedsBalanced (s : TrackerSys) : TrackerLabel → Prop
  | .finish i => ∀ c ∈ s.calls[i]?, c.call.cacheable = true → c.call.scan.status = .done →
      s.shim.poll.counts.get? c.call.prefix_ = none →
      createdAfter c.call.prefix_ c.call.scan.collector.firstRev s.shim.poll.appliedEvents
        = deletedAfter c.call.prefix_ c.call.scan.collector.firstRev s.shim.poll.appliedEvents
  | _ => True

instance (s : TrackerSys) : (a : TrackerLabel) → Decidable (SeedsBalanced s a)
  | .finish i => inferInstanceAs (Decidable (∀ c ∈ s.calls[i]?, _ → _ → _ → _ = _))
  | .shim _ => .isTrue trivial
  | .start _ _ _ => .isTrue trivial
  | .batch _ _ => .isTrue trivial

variable {cfg : Config} {st st' : Store} {p p' : Poll} {recs recs' : List RevRecord} {start : Int}

/-! ## 反映した event -/

theorem Poll.appliedTo_le (h : p.cursor ≤ p.position) : p.appliedTo ≤ p.position := by
  unfold Poll.appliedTo
  split
  · next events hpc => unfold Poll.position; rw [hpc]
  · next events hpc => unfold Poll.position; rw [hpc]
  · exact h

/-- 反映した event は、loop が始まってからの record の event である。 -/
theorem Polled.applied (h : st.Inv cfg recs) (hp : Polled cfg st p recs start) :
    start ≤ p.appliedTo ∧
      Reports cfg p.appliedEvents (between RevRecord.revision st.committed start p.appliedTo) := by
  have hsorted := h.sorted_revision
  obtain ⟨-, hstart, hcur, -, -, hpend, hsent⟩ := hp
  cases hpc : p.pc with
  | applied events =>
    simp only [Poll.cursor, Poll.position, Poll.handedTo, Poll.pending, Poll.appliedTo,
      Poll.appliedEvents, hpc] at *
    refine ⟨hstart.trans hcur, ?_⟩
    rw [← between_append hsorted hstart hcur]
    exact hsent.append hpend
  | handed events =>
    simp only [Poll.cursor, Poll.position, Poll.handedTo, Poll.appliedTo, Poll.appliedEvents,
      hpc] at *
    exact ⟨hstart.trans hcur, hsent⟩
  | stopped =>
    simp only [Poll.cursor, Poll.handedTo, Poll.appliedTo, Poll.appliedEvents, hpc] at *
    exact ⟨hstart, hsent⟩
  | starting pollStart =>
    simp only [Poll.cursor, Poll.handedTo, Poll.appliedTo, Poll.appliedEvents, hpc] at *
    exact ⟨hstart, hsent⟩
  | top =>
    simp only [Poll.cursor, Poll.handedTo, Poll.appliedTo, Poll.appliedEvents, hpc] at *
    exact ⟨hstart, hsent⟩
  | fetched lastRev events =>
    simp only [Poll.cursor, Poll.handedTo, Poll.appliedTo, Poll.appliedEvents, hpc] at *
    exact ⟨hstart, hsent⟩

/-! ## entry の不変条件 -/

/-- どの entry も、反映した revision と `seedRev` の遅いほうで生きている鍵の数を持つこと。 -/
def CountsExact (cfg : Config) (st : Store) (p : Poll) : Prop :=
  ∀ k e, (k, e) ∈ p.counts.entries →
    e.seedRev ≤ st.db.getLatestRev cfg ∧ e.ExactAt st.committed k p.appliedTo

/-- store の手は、最新の revision までの commit の列を変えない。 -/
theorem Store.Effect.atMost_eq {a : StoreLabel} (h : st.Inv cfg recs)
    (he : Store.Effect cfg st recs a st' recs') {rev : Int} (hrev : rev ≤ st.db.getLatestRev cfg) :
    atMost RevRecord.revision st'.committed rev = atMost RevRecord.revision st.committed rev := by
  cases he with
  | idle _ ha v hv hv63 calls hcalls => rfl
  | wrote op lastWriteUUID uuid v record size hcan ht hw =>
    exact atMost_concat (hrev.trans_lt (incrementAndGet_spec h.bounded hcan).2)
  | compacted i n v known endRev c c' db' begin_ hcan hi hrun hb hbatch heq => rfl

/-- 新しい commit は、反映した revision と `seedRev` より後ろにある。 -/
theorem CountsExact.store {a : StoreLabel} (h : st.Inv cfg recs) (hp : Polled cfg st p recs start)
    (hc : CountsExact cfg st p) (he : Store.Effect cfg st recs a st' recs') :
    CountsExact cfg st' p := by
  intro k e hm
  obtain ⟨hseed, hex⟩ := hc k e hm
  have hto := (Poll.appliedTo_le hp.cursor_le).trans hp.position_le
  refine ⟨hseed.trans (he.latest_le h), ?_⟩
  unfold CountEntry.ExactAt
  rw [he.atMost_eq h (max_le hseed hto)]
  exact hex

/-- loop の手は、反映した event の分だけ entry を動かす。 -/
theorem CountsExact.poll {a : PollLabel} (h : st.Inv cfg recs) (hch : Chained st.committed)
    (hp : Polled cfg st p recs start) (hc : CountsExact cfg st p)
    (he : Poll.Effect cfg st.db p a p') : CountsExact cfg st p' := by
  have hsorted := h.sorted_revision
  obtain ⟨hpos, hstart, hcur, -, -, hpend, -⟩ := hp
  cases he with
  | connect hpc =>
    -- 再開した loop は、前の cursor から始まる
    simp only [CountsExact, Poll.cursor, Poll.appliedTo, hpc] at *
    have hne : p.lastWatchRev ≠ 0 := by omega
    rw [show currentRevision cfg p.lastWatchRev st.db = p.lastWatchRev from if_pos hne]
    exact hc
  | begin_ pollStart hpc => exact fun k e hm => absurd hm (by simp)
  | read n lastRev events hpc hread =>
    simp only [CountsExact, Poll.cursor, Poll.appliedTo, hpc] at *
    exact hc
  | stay _ ha hpc => exact hc
  | apply lastRev events hpc hne =>
    have hsame := lastModRevision_of_ne_nil hne lastRev p.lastWatchRev
    simp only [CountsExact, Poll.cursor, Poll.position, Poll.pending, Poll.appliedTo, hpc,
      hsame] at *
    intro k e hm
    obtain ⟨e₀, hm₀, rfl⟩ := (CountTracker.mem_apply events p.counts).mp hm
    obtain ⟨hseed, hex⟩ := hc k e₀ hm₀
    refine ⟨?_, hex.applyAll hsorted hch hcur hpend⟩
    rw [CountEntry.applyAll_seedRev]
    exact hseed
  | hand events hpc =>
    simp only [CountsExact, Poll.appliedTo, hpc] at *
    exact hc
  | caughtUp lastRev hpc =>
    simp only [CountsExact, Poll.cursor, Poll.position, Poll.pending, Poll.appliedTo, hpc,
      lastModRevision, List.getLast?_nil] at *
    have hnil : between RevRecord.revision st.committed p.lastWatchRev lastRev = [] :=
      List.map_eq_nil_iff.mp hpend.symm
    intro k e hm
    obtain ⟨hseed, hex⟩ := hc k e hm
    exact ⟨hseed, hex.of_between_nil hsorted hcur hnil⟩
  | advance events hpc =>
    simp only [CountsExact, Poll.cursor, Poll.appliedTo, hpc] at *
    exact hc
  | stop hpc =>
    simp only [CountsExact, Poll.cursor, Poll.appliedTo, hpc] at *
    exact hc

/-- 始まる前の loop に entry はない。 -/
theorem countsExact_of_fresh (h : p = .init) : CountsExact cfg st p := by
  intro k e hm
  rw [h] at hm
  exact absurd hm (by simp [Poll.init])

theorem CountsExact.shim_store {s : Shim} {a : StoreLabel} (h : s.Inv cfg recs)
    (hc : CountsExact cfg s.store s.poll) (he : Store.Effect cfg s.store recs a st' recs') :
    CountsExact cfg st' s.poll := by
  cases hor : s.origin with
  | none => exact countsExact_of_fresh (h.fresh hor)
  | some start => exact hc.store h.store (h.polled start hor) he

theorem CountsExact.shim_poll {s : Shim} {a : PollLabel} (h : s.Inv cfg recs)
    (hch : Chained s.store.committed) (hc : CountsExact cfg s.store s.poll)
    (he : Poll.Effect cfg s.store.db s.poll a p') : CountsExact cfg s.store p' := by
  cases hor : s.origin with
  | none =>
    rw [h.fresh hor] at he
    obtain ⟨-, rfl⟩ := he.of_init
    exact fun k e hm => absurd hm (by simp [Poll.init])
  | some start => exact hc.poll h.store hch (h.polled start hor) he

/-- loop の位置は tracker によらない。 -/
theorem Shim.Inv.set_counts {s : Shim} (h : s.Inv cfg recs) (hor : s.origin ≠ none)
    (counts : CountTracker) :
    Shim.Inv cfg { s with poll := { s.poll with counts := counts } } recs where
  store := h.store
  fresh ho := absurd ho hor
  polled start ho :=
    have hp := h.polled start ho
    ⟨hp.pos, hp.start_le, hp.cursor_le, hp.position_le, hp.kept, hp.pending, hp.sent⟩

/-! ## 途中の Count -/

/-- tracker に入れるつもりの `Count` が保つもの。 -/
structure CountRun.Tracks (cfg : Config) (s : Shim) (c : CountRun) : Prop where
  revision : c.call.revision = 0
  range : listRange c.call.prefix_ c.call.prefix_ = .ok c.call.range
  phase : ListSys.Phase countSpec cfg c.call.prefix_ c.call.prefix_ ⟨0, 0⟩
    ⟨s.store, c.call.scan, c.snapshot⟩ s.store.committed
  /-- 走査は、loop が始まってから始まった。 -/
  origin : ∃ start, s.origin = some start ∧
    ∀ snap ∈ c.snapshot, start ≤ snap.db.getLatestRev cfg ∧ snap.db.Holds snap.committed

/-- 走査の答えの長さは、その revision で生きている鍵の数である。 -/
theorem SnapshotAnswer.length_eq {σ : Type} {prefix_ : Key} {s : ListSys σ} {live : List RevRecord}
    (hans : SnapshotAnswer cfg prefix_ prefix_ s live)
    (hsnap : ∀ snap ∈ s.snapshot, snap.db.Holds snap.committed) :
    live.length = (liveKeys prefix_
      (atMost RevRecord.revision s.store.committed s.call.collector.firstRev)).card := by
  obtain ⟨snap, recs, hs, hh, -, hcommitted, hmem⟩ := hans.taken
  have hkeys : (live.map RevRecord.key).toFinset = liveKeys prefix_ snap.committed := by
    ext k
    -- 走査が読んだ列と commit の列は、同じ database を表す
    rw [List.mem_toFinset, List.mem_map, mem_liveKeys, isLive_eq_getLast (hsnap snap hs),
      ← isLive_eq_getLast hh, ← exists_liveAt_iff hh.sorted]
    constructor
    · rintro ⟨r, hr, rfl⟩
      obtain ⟨hl, hin⟩ := (hmem r).mp hr
      rw [inListRange_self_eq] at hin
      exact ⟨⟨r, hl, rfl⟩, hin⟩
    · rintro ⟨⟨r, hl, rfl⟩, hin⟩
      rw [← inListRange_self_eq] at hin
      exact ⟨r, (hmem r).mpr ⟨hl, hin⟩, rfl⟩
  have hnodup : (live.map RevRecord.key).Nodup :=
    (SortedBy.map_iff.mpr hans.sorted : SortedBy id (live.map RevRecord.key)).nodup
  rw [show atMost RevRecord.revision s.store.committed s.call.collector.firstRev = snap.committed
    from hcommitted.symm, ← hkeys, List.toFinset_card_of_nodup hnodup, List.length_map]

/-- 走査を終えた `Count` が入れる entry。 -/
theorem CountRun.Tracks.result {s : Shim} {c : CountRun} (h : c.Tracks cfg s)
    (hdone : c.call.scan.status = .done) :
    listResult c.call.revision c.call.scan
        = .ok (c.call.scan.collector.firstRev, c.call.scan.collector.inner) ∧
      (c.call.scan.collector.inner.totalCount : Int) = (liveKeys c.call.prefix_ (atMost
        RevRecord.revision s.store.committed c.call.scan.collector.firstRev)).card := by
  obtain ⟨picks, hrec, hans, hpos⟩ := h.phase.answer hdone
  obtain ⟨start, -, hsnap⟩ := h.origin
  refine ⟨by rw [h.revision]; exact listResult_done hdone hpos, ?_⟩
  rw [← hans.length_eq fun snap hs => (hsnap snap hs).2, List.length_map,
    show c.call.scan.collector.inner.totalCount = picks.length from hrec]

/-! ## run 全体 -/

/-- run を通して保つもの。 -/
structure TrackerSys.Inv (cfg : Config) (s : TrackerSys) : Prop where
  shim : s.shim.Inv cfg s.shim.store.committed
  chained : Chained s.shim.store.committed
  counts : CountsExact cfg s.shim.store s.shim.poll
  calls : ∀ c ∈ s.calls, c.call.cacheable = true → c.Tracks cfg s.shim

theorem TrackerSys.init_inv (cfg : Config) : TrackerSys.init.Inv cfg :=
  ⟨Shim.init_inv cfg, chained_nil, fun _ _ h => absurd h (by simp [TrackerSys.init, Shim.init,
    Poll.init]), fun _ h => absurd h List.not_mem_nil⟩

/-- client の手の後も、database は commit の列を表す。 -/
theorem Store.Effect.chained {a : StoreLabel} (h : Chained st.committed)
    (he : Store.Effect cfg st st.committed a st' recs') : Chained st'.committed := by
  cases he with
  | idle _ _ v hv hv63 calls hcalls => exact h
  | wrote op lastWriteUUID uuid v record size hcan ht hw =>
    exact h.concat (hw.follows hw.key_eq rfl rfl)
  | compacted i n v known endRev c c' db' begin_ hcan hi hrun hb hbatch heq => exact h

theorem TrackerSys.inv_store {s : TrackerSys} {a : StoreLabel} (h : s.Inv cfg)
    (ha : a.isClient = true) (he : Store.Effect cfg s.shim.store s.shim.store.committed a st' recs') :
    TrackerSys.Inv cfg { s with shim := { s.shim with store := st' } } := by
  have hspare : SparesUnpolled s.shim (.store a) := by cases a <;> trivial
  have hshim := Shim.inv_store h.shim hspare he
  obtain rfl := he.committed_eq ha
  have hcounts := h.counts.shim_store h.shim he
  refine ⟨hshim, he.chained h.chained, hcounts, fun c hc hcache => ?_⟩
  have ht := h.calls c hc hcache
  refine ⟨ht.revision, ht.range, ListSys.phase_store h.shim.store ht.phase ?_ he, ht.origin⟩
  cases a <;> trivial

theorem TrackerSys.inv_poll {s : TrackerSys} {a : PollLabel} (h : s.Inv cfg)
    (he : Poll.Effect cfg s.shim.store.db s.shim.poll a p') :
    TrackerSys.Inv cfg { s with shim :=
      { s.shim with
        poll := p'
        origin :=
          if a = .connect then
            s.shim.origin.or (some (currentRevision cfg s.shim.poll.lastWatchRev s.shim.store.db))
          else s.shim.origin } } := by
  have hcounts := h.counts.shim_poll h.shim h.chained he
  refine ⟨Shim.inv_poll h.shim he, h.chained, hcounts, fun c hc hcache => ?_⟩
  have ht := h.calls c hc hcache
  obtain ⟨start, hor, hsnap⟩ := ht.origin
  refine ⟨ht.revision, ht.range, ht.phase, start, ?_, hsnap⟩
  simp [hor]

/-- 走査を始める `Count`。 -/
theorem startCount_scanning {prefix_ startKey : Key} {revision : Int} {c : CountCall}
    (hs : p.startCount prefix_ startKey revision = .scanning c) (hcache : c.cacheable = true) :
    c.revision = 0 ∧ p.active = true ∧ listRange c.prefix_ c.prefix_ = .ok c.range ∧
      c.scan = .start (newRecordCollector 0 ⟨0, 0⟩) := by
  unfold Poll.startCount at hs
  simp only at hs
  split at hs
  · cases hs
  · split at hs
    · cases hs
    · next range hrange =>
      cases hs
      simp only [Bool.and_eq_true, decide_eq_true_eq] at hcache
      obtain ⟨⟨rfl, rfl⟩, hactive⟩ := hcache
      exact ⟨rfl, hactive, hrange, rfl⟩

theorem TrackerSys.inv_start {s : TrackerSys} {prefix_ startKey : Key} {revision : Int}
    {c : CountCall} (h : s.Inv cfg)
    (hs : s.shim.poll.startCount prefix_ startKey revision = .scanning c) :
    TrackerSys.Inv cfg { s with calls := s.calls ++ [⟨c, none⟩] } := by
  refine ⟨h.shim, h.chained, h.counts, fun c' hc' hcache => ?_⟩
  rcases List.mem_append.mp hc' with hc' | hc'
  · exact h.calls c' hc' hcache
  · cases List.mem_singleton.mp hc'
    obtain ⟨hrev, hactive, hrange, hscan⟩ := startCount_scanning hs hcache
    refine ⟨hrev, hrange, .fresh rfl hscan, ?_⟩
    cases hor : s.shim.origin with
    | none => rw [h.shim.fresh hor] at hactive; cases hactive
    | some start => exact ⟨start, rfl, fun snap hsnap => by cases hsnap⟩

theorem TrackerSys.inv_batch {s : TrackerSys} {i : Nat} {c : CountRun} (h : s.Inv cfg)
    (hi : s.calls[i]? = some c) (hrun : c.call.scan.status = .running) (n : Nat) :
    TrackerSys.Inv cfg { s with
      calls := s.calls.set i
        ⟨c.call.batch cfg n s.shim.store.db, c.snapshot.or (some s.shim.store)⟩ } := by
  refine ⟨h.shim, h.chained, h.counts, fun c' hc' hcache => ?_⟩
  rcases List.mem_or_eq_of_mem_set hc' with hc' | rfl
  · exact h.calls c' hc' hcache
  · have ht := h.calls c (List.mem_of_getElem? hi) hcache
    obtain ⟨start, hor, hsnap⟩ := ht.origin
    refine ⟨ht.revision, ht.range, ?_, start, hor, ?_⟩
    · exact ListSys.phase_batch countSpec_unlimited (show countSpec.Received ⟨0, 0⟩ [] from rfl)
        ht.range h.shim.store ht.phase hrun n
    · cases hsn : c.snapshot with
      | some snap₀ =>
        intro snap hs
        exact hsnap snap (hsn ▸ hs)
      | none =>
        -- 最初の batch は、いまの store を読む
        rintro snap ⟨⟩
        have hp := h.shim.polled start hor
        exact ⟨hp.start_le.trans (hp.cursor_le.trans hp.position_le), h.shim.store.tracks.holds⟩

/-- entry を入れる前に反映した event が釣り合っていれば、入れた entry は正しい。 -/
theorem CountRun.Tracks.seed_exact {s : TrackerSys} {c : CountRun} (h : s.Inv cfg)
    (ht : c.Tracks cfg s.shim) (hdone : c.call.scan.status = .done)
    (hbal : createdAfter c.call.prefix_ c.call.scan.collector.firstRev s.shim.poll.appliedEvents
      = deletedAfter c.call.prefix_ c.call.scan.collector.firstRev s.shim.poll.appliedEvents) :
    c.call.scan.collector.firstRev ≤ s.shim.store.db.getLatestRev cfg ∧
      CountEntry.ExactAt s.shim.store.committed c.call.prefix_ s.shim.poll.appliedTo
        ⟨c.call.scan.collector.inner.totalCount, c.call.scan.collector.firstRev⟩ := by
  have hcount := (ht.result hdone).2
  obtain ⟨picks, -, hans, -⟩ := ht.phase.answer hdone
  obtain ⟨snap, recs, hsn, -, hfirst, -, -⟩ := hans.taken
  obtain ⟨start, hor, hsnap⟩ := ht.origin
  have hp := h.shim.polled start hor
  have hle : start ≤ c.call.scan.collector.firstRev := by
    rw [show c.call.scan.collector.firstRev = _ from hfirst]
    exact (hsnap snap hsn).1
  obtain ⟨hto, hrep⟩ := hp.applied h.shim.store
  -- 反映した event を走査の数に足しても、数は変わらない
  have hstart : CountEntry.ExactAt s.shim.store.committed c.call.prefix_ start
      ⟨c.call.scan.collector.inner.totalCount, c.call.scan.collector.firstRev⟩ := by
    unfold CountEntry.ExactAt
    rw [max_eq_left hle]
    exact hcount
  have hall := hstart.applyAll h.shim.store.sorted_revision h.chained hto hrep
  unfold CountEntry.ExactAt at hall ⊢
  rw [CountEntry.applyAll_count, CountEntry.applyAll_seedRev] at hall
  refine ⟨?_, ?_⟩
  · cases ht.phase with
    | fresh hsnap hcall => rw [show c.call.scan = _ from hcall] at hdone; cases hdone
    | begun st recs₀ all hsnap' h₀ hall hV hist hout =>
      obtain rfl : snap = st := Option.some.inj (hsn.symm.trans hsnap')
      rw [show c.call.scan.collector.firstRev = _ from hfirst]
      exact hV
  · rw [← hall, hbal]
    simp

/-- tracker を変えるのは、走査を終えて、まだ entry のない prefix に入れるときだけである。 -/
theorem CountRun.Tracks.finish_cases {s : TrackerSys} {c : CountRun}
    (ht : c.call.cacheable = true → c.Tracks cfg s.shim)
    (hend : c.call.scan.status ≠ .running) (counts : CountTracker) :
    (c.call.finish counts).2 = counts ∨
      (c.call.cacheable = true ∧ c.call.scan.status = .done ∧ counts.get? c.call.prefix_ = none ∧
        (c.call.finish counts).2 = counts.set c.call.prefix_
          ⟨c.call.scan.collector.inner.totalCount, c.call.scan.collector.firstRev⟩) := by
  unfold CountCall.finish
  cases hcache : c.call.cacheable with
  | false =>
    left
    split <;> rfl
  | true =>
    cases hst : c.call.scan.status with
    | running => exact absurd hst hend
    | failed e =>
      left
      rw [show listResult c.call.revision c.call.scan = .error e by unfold listResult; rw [hst]]
    | done =>
      rw [((ht hcache).result hst).1]
      simp only [if_true, CountTracker.seed]
      cases hget : counts.get? c.call.prefix_ with
      | some e => exact Or.inl rfl
      | none => exact Or.inr ⟨trivial, trivial, rfl, rfl⟩

theorem TrackerSys.inv_finish {s : TrackerSys} {i : Nat} {c : CountRun} (h : s.Inv cfg)
    (hi : s.calls[i]? = some c) (hend : c.call.scan.status ≠ .running)
    (hok : SeedsBalanced s (.finish i)) :
    TrackerSys.Inv cfg
      { shim := { s.shim with
          poll := { s.shim.poll with counts := (c.call.finish s.shim.poll.counts).2 } }
        calls := s.calls.eraseIdx i } := by
  have hcalls : ∀ c' ∈ s.calls.eraseIdx i, c'.call.cacheable = true → c'.Tracks cfg s.shim :=
    fun c' hc' => h.calls c' (List.mem_of_mem_eraseIdx hc')
  have htr := h.calls c (List.mem_of_getElem? hi)
  rcases CountRun.Tracks.finish_cases htr hend s.shim.poll.counts with
    heq | ⟨hcache, hdone, hnone, heq⟩
  · rw [heq]
    exact ⟨h.shim, h.chained, h.counts, hcalls⟩
  · rw [heq]
    obtain ⟨start, hor, -⟩ := (htr hcache).origin
    refine ⟨h.shim.set_counts (by rw [hor]; simp) _, h.chained, fun k e hm => ?_,
      fun c' hc' hcache' => ?_⟩
    · have hseed := (htr hcache).seed_exact h hdone (hok c hi hcache hdone hnone)
      rcases OrdMap.mem_set.mp hm with hnew | ⟨hold, -⟩
      · cases hnew
        exact hseed
      · exact h.counts k e hold
    · have ht := hcalls c' hc' hcache'
      exact ⟨ht.revision, ht.range, ht.phase, ht.origin⟩

theorem TrackerSys.inv_step {s s' : TrackerSys} {a : TrackerLabel} (h : s.Inv cfg)
    (hno : a.compacts = false) (hok : SeedsBalanced s a) (hs : s.step cfg a = some s') :
    s'.Inv cfg := by
  cases a with
  | shim a =>
    obtain ⟨t, ht, rfl⟩ := Option.map_eq_some_iff.mp hs
    cases a with
    | store a =>
      obtain ⟨st, hst, rfl⟩ := Option.map_eq_some_iff.mp ht
      obtain ⟨recs', he⟩ := Store.step_effect h.shim.store hst
      exact TrackerSys.inv_store h (by simpa [TrackerLabel.compacts] using hno) he
    | poll a =>
      obtain ⟨p', hp', rfl⟩ := Option.map_eq_some_iff.mp ht
      exact TrackerSys.inv_poll h (Poll.step_effect hp')
  | start prefix_ startKey revision =>
    simp only [TrackerSys.step] at hs
    split at hs
    · next c hc => cases hs; exact TrackerSys.inv_start h hc
    · cases hs; exact h
    · cases hs; exact h
  | batch i n =>
    simp only [TrackerSys.step] at hs
    split at hs
    · next c hi =>
      split at hs
      · next hrun => cases hs; exact TrackerSys.inv_batch h hi hrun n
      · cases hs
    · cases hs
  | finish i =>
    simp only [TrackerSys.step] at hs
    split at hs
    · next c hi =>
      split at hs
      · cases hs
      · next hend => cases hs; exact TrackerSys.inv_finish h hi hend hok
    · cases hs

/-- compaction のない run で、entry を入れる手がすべて条件を満たすなら、反映した batch の分だけ cursor が
遅れているとき以外は、cursor が `seedRev` に届いた entry の数は、cursor の revision の store で生きている、
prefix に合う鍵の数である。 -/
theorem tracked_counts_exact (cfg : Config) {as : List TrackerLabel} {s : TrackerSys}
    (hrun : runSteps (TrackerSys.step cfg) .init as = some s)
    (hno : ∀ a ∈ as, a.compacts = false)
    (hok : StepsMeet (TrackerSys.step cfg) SeedsBalanced .init as) {prefix_ : Key} {e : CountEntry}
    (he : s.shim.poll.counts.get? prefix_ = some e) (hsettled : s.shim.poll.settled = true)
    (hseed : e.seedRev ≤ s.shim.poll.lastWatchRev) :
    e.count = (liveKeys prefix_
      (atMost RevRecord.revision s.shim.store.committed s.shim.poll.lastWatchRev)).card := by
  have h : s.Inv cfg := by
    refine run_invariant_of (fun s a => a.compacts = false ∧ SeedsBalanced s a)
      (P := TrackerSys.Inv cfg) ?_ (TrackerSys.init_inv cfg) ?_ hrun
    · rintro s a s' h ⟨hno, hok⟩ hs
      exact TrackerSys.inv_step h hno hok hs
    · exact (stepsMeet_of_forall hno).and hok
  have hex := (h.counts prefix_ e (OrdMap.get?_eq_some_iff.mp he)).2
  have hto : s.shim.poll.appliedTo = s.shim.poll.lastWatchRev := by
    unfold Poll.settled at hsettled
    unfold Poll.appliedTo Poll.cursor
    cases hpc : s.shim.poll.pc <;> simp [hpc] at hsettled ⊢
  unfold CountEntry.ExactAt at hex
  rw [hto, max_eq_right hseed] at hex
  exact hex

/-- 走査の後に作られた鍵の event を、entry が入ってから loop が反映する run。 -/
def trackedRun : List TrackerLabel :=
  [.shim (.store (.write (.create [47, 97] [1] 0) 0 1 2)), .shim (.poll .connect),
    .shim (.poll .begin_), .start [47] [47] 0, .batch 0 5,
    .shim (.store (.write (.create [47, 98] [2] 0) 0 2 3)), .finish 0, .shim (.poll (.read 5)),
    .shim (.poll .apply), .shim (.poll .hand), .shim (.poll .advance)]

theorem tracked_counts_exact_of_lagging :
    ∃ s e, runSteps (TrackerSys.step .default) .init trackedRun = some s ∧
      s.shim.poll.counts.get? [47] = some e ∧ s.shim.poll.lastWatchRev = 3 ∧
      e.count = (liveKeys [47]
        (atMost RevRecord.revision s.shim.store.committed s.shim.poll.lastWatchRev)).card := by
  have h : (runSteps (TrackerSys.step .default) .init trackedRun).any (fun s =>
      (s.shim.poll.counts.get? [47]).any (fun e => decide (s.shim.poll.settled = true ∧
        e.seedRev ≤ s.shim.poll.lastWatchRev ∧ s.shim.poll.lastWatchRev = 3))) = true := by
    decide +kernel
  obtain ⟨s, hs, h⟩ := (Option.any_eq_true _ _).mp h
  obtain ⟨e, he, hsettled, hseed, hcur⟩ := exists_of_any_decide h
  exact ⟨s, e, hs, he, hcur, tracked_counts_exact .default hs (by decide) (by decide +kernel) he
    hsettled hseed⟩

/-- 走査の後に作られた鍵の event を、entry が入る前に loop が反映する run。 -/
def overtakenRun : List TrackerLabel :=
  [.shim (.poll .connect), .shim (.poll .begin_), .start [47] [47] 0, .batch 0 5,
    .shim (.store (.write (.create [47, 97] [1] 0) 0 1 2)), .shim (.poll (.read 5)),
    .shim (.poll .apply), .shim (.poll .hand), .shim (.poll .advance), .finish 0]

/-- cursor の revision 2 では `/a` が生きているのに、entry の数は 0 である。 -/
theorem overtaken_count_drifts :
    ∃ s e, runSteps (TrackerSys.step .default) .init overtakenRun = some s ∧
      (∀ a ∈ overtakenRun, a.compacts = false) ∧
      s.shim.poll.counts.get? [47] = some e ∧ s.shim.poll.pc = .top ∧
      e.seedRev ≤ s.shim.poll.lastWatchRev ∧ s.shim.poll.lastWatchRev = 2 ∧ e.count = 0 ∧
      (liveKeys [47] (atMost RevRecord.revision s.shim.store.committed
        s.shim.poll.lastWatchRev)).card = 1 := by
  have h : (runSteps (TrackerSys.step .default) .init overtakenRun).any (fun s =>
      (s.shim.poll.counts.get? [47]).any (fun e => decide (s.shim.poll.pc = .top ∧
        e.seedRev ≤ s.shim.poll.lastWatchRev ∧ s.shim.poll.lastWatchRev = 2 ∧ e.count = 0 ∧
        (liveKeys [47] (atMost RevRecord.revision s.shim.store.committed
          s.shim.poll.lastWatchRev)).card = 1))) = true := by
    decide +kernel
  obtain ⟨s, hs, h⟩ := (Option.any_eq_true _ _).mp h
  obtain ⟨e, he, h⟩ := exists_of_any_decide h
  exact ⟨s, e, hs, by decide, he, h⟩

end KubeFdb
