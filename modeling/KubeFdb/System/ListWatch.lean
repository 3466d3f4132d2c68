import KubeFdb.Lib.Updates
import KubeFdb.Properties.LiveKeys
import KubeFdb.System.PinnedScan
import KubeFdb.System.WatchStream

/-!
# 一覧と、その続きの watch

`List` の返した revision の次から `Watch` を開く。一覧に event を順に重ねていくと、どこで止めても、最後の event の
revision の時点の内容になる。一覧の batch と watch の読み出しの間には、ほかの書き込みが挟まってよい。

示し方は二段である。

1. 一覧は、窓の record の更新をすべて重ねた写像である（`cacheOf_listed`）。
2. 届いた event は、その先の record の更新を、抜けも重なりもなく並べたものである（`WatchRun.Inv.delivered`）。

`list_then_watch` — compaction のないどの run でも、broadcaster が batch を捨てていない watch（`missed = []`）なら、
一覧と event から内容を組み立てられる。
-/

namespace KubeFdb

open Tuple

variable {cfg : Config} {hist : List RevRecord} {r : RevRecord} {prefix_ : Key} {R : Int}

/-! ## 更新 -/

/-- record の更新。tombstone は鍵を除く。 -/
def RevRecord.change (cfg : Config) (r : RevRecord) : Key × Option KeyValue :=
  (r.key, if r.record.isDelete then none else some (kvOf cfg r))

/-- event の更新。 -/
def Event.change (e : Event) : Key × Option KeyValue :=
  (e.kv.key, if e.delete then none else some e.kv)

theorem change_eventIn : (eventIn cfg hist r).change = r.change cfg := by
  unfold eventIn
  split <;> rfl

/-- 一覧を鍵で引く写像。 -/
def cacheOf (kvs : List KeyValue) : OrdMap Key KeyValue :=
  OrdMap.empty.updateAll (kvs.map (fun kv => (kv.key, some kv)))

/-- revision `R` の時点の鍵の内容。 -/
def contentAt (hist : List RevRecord) (R : Int) (key : Key) : Option KeyValue :=
  (newest RevRecord.key (atMost RevRecord.revision hist R) key).bind (fun r =>
    if r.record.isDelete then none else some r.keyValue)

/-- 重ねた更新から鍵を引く。 -/
theorem get?_updateAll_change (p : Key → Bool) (key : Key) :
    (OrdMap.empty.updateAll (((atMost RevRecord.revision hist R).filter (fun r => p r.key)).map
      (RevRecord.change cfg))).get? key = if p key then contentAt hist R key else none := by
  refine (OrdMap.get?_updateAll_map RevRecord.key
    (fun r => if r.record.isDelete then none else some (kvOf cfg r)) _ key).trans ?_
  rw [newest_filter]
  by_cases hp : p key = true
  · rw [if_pos hp, if_pos hp, contentAt]
    cases newest RevRecord.key (atMost RevRecord.revision hist R) key with
    | none => rfl
    | some r =>
      show (if r.record.isDelete then none else some (kvOf cfg r)) = _
      cases hd : r.record.isDelete with
      | true => simp [hd]
      | false => simp [hd, kvOf_of_live cfg hd]
  · rw [if_neg hp, if_neg hp]
    rfl

/-- 見える record の一覧では、鍵の record は、その鍵の最新の record が生きているときに限ってある。 -/
theorem newest_listed (hs : SortedBy RevRecord.rev hist) (p : Key → Bool) {live : List RevRecord}
    (hsorted : SortedBy RevRecord.key live)
    (hmem : ∀ r, r ∈ live ↔ LiveAt 0 hist r ∧ p r.key = true) (k : Key) :
    newest RevRecord.key live k
      = (newest RevRecord.key (hist.filter (fun r => p r.key)) k).filter RevRecord.live := by
  have hfilter : SortedBy RevRecord.rev (hist.filter (fun r => p r.key)) := hs.filter _
  cases hn : newest RevRecord.key (hist.filter (fun r => p r.key)) k with
  | none =>
    refine newest_eq_none_iff.mpr fun a ha => ?_
    obtain ⟨hl, hpa⟩ := (hmem a).mp ha
    exact newest_eq_none_iff.mp hn a (List.mem_filter.mpr ⟨hl.mem, hpa⟩)
  | some r =>
    obtain ⟨hr, hk, hmax⟩ := (newest_eq_some_iff hfilter).mp hn
    obtain ⟨hr, hpr⟩ := List.mem_filter.mp hr
    cases hl : r.live with
    | true =>
      have hlive : LiveAt 0 hist r := ⟨hr, by simp [pinWindow], hl, fun a ha _ hak =>
        hmax a (List.mem_filter.mpr ⟨ha, by rw [hak]; exact hpr⟩) (hak.trans hk)⟩
      rw [Option.filter_some_pos hl]
      exact (newest_eq_some_iff hsorted).mpr
        ⟨(hmem r).mpr ⟨hlive, hpr⟩, hk, fun a _ hak => (hak.trans hk.symm).le⟩
    | false =>
      -- 最新の record が tombstone なら、その鍵に見える record はない
      rw [Option.filter_some_neg hl]
      refine newest_eq_none_iff.mpr fun a ha hak => ?_
      obtain ⟨hla, hpa⟩ := (hmem a).mp ha
      have hle := hmax a (List.mem_filter.mpr ⟨hla.mem, hpa⟩) hak
      have hge := hla.newest r hr (by simp [pinWindow]) (hk.trans hak.symm)
      have hlive := hla.live
      rw [hs.eq_of_index_eq hla.mem hr (le_antisymm hle hge), hl] at hlive
      cases hlive

/-- **見える record の一覧は、窓の record の更新をすべて重ねた写像である。** -/
theorem cacheOf_listed (hs : SortedBy RevRecord.rev hist) (p : Key → Bool) {live : List RevRecord}
    (hsorted : SortedBy RevRecord.key live)
    (hmem : ∀ r, r ∈ live ↔ LiveAt 0 hist r ∧ p r.key = true) :
    cacheOf (live.map (kvOf cfg)) = OrdMap.empty.updateAll
      ((hist.filter (fun r => p r.key)).map (RevRecord.change cfg)) := by
  refine OrdMap.eq_of_get?_eq fun k => ?_
  have hlist : (cacheOf (live.map (kvOf cfg))).get? k
      = (newest RevRecord.key live k).bind (fun r => some (kvOf cfg r)) := by
    rw [cacheOf, List.map_map]
    exact OrdMap.get?_updateAll_map RevRecord.key (fun r => some (kvOf cfg r)) live k
  have hlog : (OrdMap.empty.updateAll
      ((hist.filter (fun r => p r.key)).map (RevRecord.change cfg))).get? k
        = (newest RevRecord.key (hist.filter (fun r => p r.key)) k).bind (fun r =>
          if r.record.isDelete then none else some (kvOf cfg r)) :=
    OrdMap.get?_updateAll_map RevRecord.key _ _ k
  rw [hlist, hlog, newest_listed hs p hsorted hmem]
  cases newest RevRecord.key (hist.filter (fun r => p r.key)) k with
  | none => rfl
  | some r => cases hd : r.record.isDelete <;> simp [Option.filter, RevRecord.live, hd]

/-! ## 系 -/

/-- watch の系と、並行して batch を進める一つの `List`。`snapshot` は、最初の batch が読んだ store の ghost である。 -/
structure ListWatchSys where
  sys : WatchSys
  call : ListCall ListCollector
  snapshot : Option Store
deriving DecidableEq

def ListWatchSys.init (R : Int) : ListWatchSys :=
  ⟨.init, .start (newRecordCollector R (newListCollector 0 false)), none⟩

inductive ListWatchLabel where
  | watch (a : WatchLabel)
  /-- 一覧の batch。`n` は読む record の数である。 -/
  | batch (n : Nat)
deriving DecidableEq

def ListWatchLabel.compacts : ListWatchLabel → Bool
  | .watch a => a.compacts
  | .batch _ => false

/-- 一手。 -/
def ListWatchSys.step (cfg : Config) (range : Bytes × Bytes) (s : ListWatchSys) :
    ListWatchLabel → Option ListWatchSys
  | .watch a => (s.sys.step cfg a).map (fun t => { s with sys := t })
  | .batch n =>
    if s.call.status = .running then
      some { s with
        call := (s.call.batch (RecordCollector.processor listProcessor cfg) (indexRange range) n
          s.sys.shim.store.db).1
        snapshot := s.snapshot.or (some s.sys.shim.store) }
    else none

/-! ## 不変条件 -/

/-- watch の系の手は、store の手か、store を変えない手である。 -/
theorem WatchSys.step_store {s s' : WatchSys} {a : WatchLabel} (hs : s.step cfg a = some s') :
    s'.shim.store = s.shim.store ∨
      ∃ b, a = .shim (.store b) ∧ s.shim.store.step cfg b = some s'.shim.store := by
  cases WatchSys.step_effect hs with
  | shim a t ht =>
    cases a with
    | store a =>
      obtain ⟨st, hst, rfl⟩ := Option.map_eq_some_iff.mp ht
      exact Or.inr ⟨a, rfl, hst⟩
    | poll a =>
      obtain ⟨p, -, rfl⟩ := Option.map_eq_some_iff.mp ht
      exact Or.inl rfl
  | opened prefix_ minRevision subscribed hrunning hrange => exact Or.inl rfl
  | fannedOut full events hev => exact Or.inl rfl
  | watched i a w w' hi he => exact Or.inl rfl

structure ListWatchSys.Inv (cfg : Config) (prefix_ : Key) (R : Int) (s : ListWatchSys) : Prop where
  sys : s.sys.Inv cfg
  written : s.sys.shim.store.Written cfg
  scan : PinnedScan cfg s.sys.shim.store prefix_ R s.call s.snapshot

theorem ListWatchSys.inv_step {range : Bytes × Bytes} (hr : listRange prefix_ prefix_ = .ok range)
    {s s' : ListWatchSys} {a : ListWatchLabel} (h : s.Inv cfg prefix_ R) (ha : a.compacts = false)
    (hs : s.step cfg range a = some s') : s'.Inv cfg prefix_ R := by
  cases a with
  | watch a =>
    obtain ⟨t, ht, rfl⟩ := Option.map_eq_some_iff.mp hs
    have hinv := WatchSys.inv_step h.sys ha ht
    rcases WatchSys.step_store ht with hsame | ⟨b, rfl, hb⟩
    · exact ⟨hinv, hsame ▸ h.written, hsame ▸ h.scan⟩
    · have hclient : b.isClient = true := by
        simpa [ListWatchLabel.compacts, WatchLabel.compacts] using ha
      exact ⟨hinv, written_step h.written hb (Or.inr hclient),
        h.scan.store h.written hb (Or.inr hclient)⟩
  | batch n =>
    simp only [ListWatchSys.step] at hs
    split at hs
    · next hrun =>
      cases hs
      exact ⟨h.sys, h.written, h.scan.batch h.written hr hrun n⟩
    · cases hs

theorem ListWatchSys.inv_run {range : Bytes × Bytes} (hr : listRange prefix_ prefix_ = .ok range)
    {as : List ListWatchLabel} {s : ListWatchSys}
    (hrun : runSteps (ListWatchSys.step cfg range) (.init R) as = some s)
    (hno : ∀ a ∈ as, a.compacts = false) : s.Inv cfg prefix_ R := by
  refine run_invariant_of (fun _ a => a.compacts = false)
    (P := fun s => s.Inv cfg prefix_ R) (fun s a s' h ha hs => inv_step hr h ha hs)
    ⟨WatchSys.init_inv cfg, ⟨[], fun _ ha => absurd ha List.not_mem_nil, rfl⟩, .fresh rfl⟩
    (stepsMeet_of_forall hno) hrun

/-! ## 一覧と続きの watch -/

/-- 終わった一覧は、それが表す revision までの更新を重ねた写像である。 -/
theorem ListWatchSys.Inv.cacheOf_answer {s : ListWatchSys} (h : s.Inv cfg prefix_ R)
    (hstop : s.call.status ≠ .running) {rev : Int} {c : ListCollector}
    (hlist : listResult R s.call = .ok (rev, c)) :
    0 < rev ∧ cacheOf (toKeyValues cfg c.records) = OrdMap.empty.updateAll
      (((atMost RevRecord.revision s.sys.shim.store.committed (listedAt R rev)).filter
        (fun r => doesEventHavePrefix r.key prefix_)).map (RevRecord.change cfg)) := by
  obtain ⟨t, -, hb, hans⟩ := h.scan.answer hstop
  rcases hans with ⟨-, herr⟩ | ⟨hle, live, c', hok, hkvs, hlive, hmem⟩
  · cases herr.symm.trans hlist
  · obtain ⟨rfl, rfl⟩ : t.db.getLatestRev cfg = rev ∧ c' = c := by
      simpa using hok.symm.trans hlist
    rw [inWindowAt_eq_listedAt hle] at hmem
    simp only [inListRange_self_eq] at hmem
    have hwindow : SortedBy RevRecord.rev (atMost RevRecord.revision s.sys.shim.store.committed
        (listedAt R (t.db.getLatestRev cfg))) := h.written.inv.1.tracks.sorted.filter _
    rw [hkvs]
    exact ⟨hb.written.inv.1.bounded.pos,
      cacheOf_listed hwindow (fun key => doesEventHavePrefix key prefix_) hlive hmem⟩

/-- 続きの watch に届いた event は、その先の record の先頭部分の event である。 -/
theorem ListWatchSys.Inv.delivered_after {s : ListWatchSys} (h : s.Inv cfg prefix_ R) {w : WatchRun}
    (hw : w ∈ s.sys.watches) (hmissed : w.missed = []) (hsame : watchPrefix w.prefix_ = prefix_)
    {base : Int} (h0 : 0 ≤ base) (hmin : w.minRevision = base + 1) (n : Nat) :
    ∃ rs, w.result.flatten.take n = rs.map (eventIn cfg s.sys.shim.store.committed) ∧
      rs <+: s.sys.shim.store.committed.filter
        (fun r => doesEventHavePrefix r.key prefix_ && decide (base + 1 ≤ r.revision)) := by
  obtain ⟨rs, hrs, hp⟩ := (h.sys.watches w hw).delivered h.sys.shim hmissed (by omega)
  rw [hmin] at hp
  simp only [WatchRun.accepts, hsame] at hp
  exact ⟨rs.take n, by rw [hrs, List.map_take], (List.take_prefix n rs).trans hp⟩

/-- **一覧に続きの watch の event を重ねると、最後の event の時点の内容になる。** compaction のないどの run でも、終わった
一覧が表す revision の次から開いた同じ prefix の watch で、broadcaster に打ち切られていないものについて、届いた event を
どこまで重ねても成り立つ。 -/
theorem list_then_watch (cfg : Config) {range : Bytes × Bytes}
    (hr : listRange prefix_ prefix_ = .ok range) (hR : 0 ≤ R) {as : List ListWatchLabel}
    {s : ListWatchSys} (hrun : runSteps (ListWatchSys.step cfg range) (.init R) as = some s)
    (hno : ∀ a ∈ as, a.compacts = false) (hstop : s.call.status ≠ .running) {rev : Int}
    {c : ListCollector} (hlist : listResult R s.call = .ok (rev, c)) {w : WatchRun}
    (hw : w ∈ s.sys.watches) (hmissed : w.missed = []) (hsame : watchPrefix w.prefix_ = prefix_)
    (hmin : w.minRevision = listedAt R rev + 1) (n : Nat) (key : Key) :
    ((cacheOf (toKeyValues cfg c.records)).updateAll
        ((w.result.flatten.take n).map Event.change)).get? key
      = if doesEventHavePrefix key prefix_ then
          contentAt s.sys.shim.store.committed
            (((w.result.flatten.take n).getLast?.map (fun e => e.kv.modRevision)).getD
              (listedAt R rev)) key
        else none := by
  have h := ListWatchSys.inv_run hr hrun hno
  obtain ⟨hpos, hcache⟩ := h.cacheOf_answer hstop hlist
  have h0 : 0 ≤ listedAt R rev := by
    unfold listedAt
    split <;> omega
  obtain ⟨rs, hevents, hp⟩ := h.delivered_after hw hmissed hsame h0 hmin n
  have hchange : (w.result.flatten.take n).map Event.change = rs.map (RevRecord.change cfg) := by
    rw [hevents, List.map_map]
    exact List.map_congr_left fun r _ => change_eventIn
  have hlast : (w.result.flatten.take n).getLast?.map (fun e => e.kv.modRevision)
      = rs.getLast?.map RevRecord.revision := by
    rw [hevents, List.getLast?_map, Option.map_map]
    exact congrArg (fun f => Option.map f _) (funext fun r => eventIn_modRevision)
  -- 一覧の更新と event の更新をつなぐと、最後の event までの更新になる
  rw [hcache, hchange, hlast, ← OrdMap.updateAll_append, ← List.map_append,
    filter_atMost_append h.sys.shim.inv.store.sorted_revision hp]
  exact get?_updateAll_change (fun key => doesEventHavePrefix key prefix_) key

/-- 一覧の batch の間の更新と、watch を開いた後の削除を、続きの watch が受け取る run。 -/
def listWatchRun : List ListWatchLabel :=
  [.watch (.shim (.poll .connect)), .watch (.shim (.poll .begin_)),
    .watch (.shim (.store (.write (.create [47, 97] [1] 0) 0 1 2))),
    .watch (.shim (.store (.write (.create [47, 98] [2] 0) 0 2 3))), .batch 0,
    .watch (.shim (.store (.write (.update [47, 98] [3] 3 0) 0 3 4))), .batch 5,
    .watch (.open_ [47] 4 true), .watch (.watch 0 (.read 5)),
    .watch (.shim (.store (.write (.delete [47, 97] 2) 0 4 5))), .watch (.watch 0 .sendInitial),
    .watch (.shim (.poll (.read 5))), .watch (.shim (.poll .apply)), .watch (.shim (.poll .hand)),
    .watch (.fanOut []), .watch (.watch 0 .filter), .watch (.watch 0 .forward)]

/-- 一覧は revision 3 の内容で、更新と削除を重ねると revision 5 の内容になる。 -/
theorem list_then_watch_of_overwritten :
    ∃ range s c, listRange [47] [47] = .ok range ∧
      runSteps (ListWatchSys.step .default range) (.init 0) listWatchRun = some s ∧
      listResult 0 s.call = .ok (3, c) ∧
      toKeyValues .default c.records = [⟨[47, 97], 2, 2, 0, [1]⟩, ⟨[47, 98], 3, 3, 0, [2]⟩] ∧
      ∃ w ∈ s.sys.watches,
        w.result.flatten.map (fun e => (e.kv.modRevision, e.delete)) = [(4, false), (5, true)] ∧
        ∀ n key, ((cacheOf (toKeyValues .default c.records)).updateAll
            ((w.result.flatten.take n).map Event.change)).get? key
          = if doesEventHavePrefix key [47] then
              contentAt s.sys.shim.store.committed
                (((w.result.flatten.take n).getLast?.map (fun e => e.kv.modRevision)).getD
                  (listedAt 0 3)) key
            else none := by
  obtain ⟨range, hr⟩ := listRange_self [47]
  have hrange : range = ([2, 47, 0], [2, 48]) := Except.ok.inj (hr.symm.trans (by decide))
  subst hrange
  have h : (runSteps (ListWatchSys.step .default ([2, 47, 0], [2, 48])) (.init 0) listWatchRun).any
      (fun s => decide (s.call.status = .done ∧
        listResult 0 s.call = .ok (3, s.call.collector.inner) ∧
        toKeyValues .default s.call.collector.inner.records
          = [⟨[47, 97], 2, 2, 0, [1]⟩, ⟨[47, 98], 3, 3, 0, [2]⟩] ∧
        ∃ w ∈ s.sys.watches, w.missed = [] ∧ watchPrefix w.prefix_ = [47] ∧
          w.minRevision = listedAt 0 3 + 1 ∧
          w.result.flatten.map (fun e => (e.kv.modRevision, e.delete))
            = [(4, false), (5, true)])) = true := by decide +kernel
  obtain ⟨s, hs, hdone, hlist, hkvs, w, hw, hmissed, hsame, hmin, hevents⟩ :=
    exists_of_any_decide h
  refine ⟨_, s, _, hr, hs, hlist, hkvs, w, hw, hevents, fun n key => ?_⟩
  exact list_then_watch .default hr le_rfl hs (by decide) (by rw [hdone]; decide) hlist hw hmissed
    hsame hmin n key

end KubeFdb
