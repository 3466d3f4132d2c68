import KubeFdb.Robustness.Pipeline
import KubeFdb.Robustness.WatchCheckSound
import KubeFdb.System.PrevValues
import KubeFdb.System.WatchStream

/-!
# driver の watch の検査

driver の watch が送った event を client の report に直して、log の再生と比べる。連番の設定では、`PrevKV` のほかの
検査はどの run でも通る。`PrevKV` の検査が通らないのは、消した鍵を作り直した event が、消えた値を `PrevKV` に持って
届いたとき、そのときに限る（`driver_passes_watch_iff`）。

report は、watch の送った列の先頭部分を、client がどう区切って受け取ったものでもよい。進捗の通知は、ここでは
扱わない。event を client の形に直す kine と etcd の client はこのリポジトリにないので、直す関数は、field ごとの仮定
（`Converts`）を満たすものとする。broadcaster が取りこぼした watch の report も扱わない。
-/

namespace KubeFdb.Robustness

open Tuple

variable {V O : Type} {toV : Bytes → V} {cfg : Config} {hist pre post : List RevRecord}
  {r : RevRecord}

/-! ## 届く event -/

/-- driver の event を client の event に直す関数への仮定。作成は、鍵の作られた revision と書かれた revision で見分ける。
`PrevKV` は、求めた watch にだけ付く。 -/
structure Converts (toV : Bytes → V) (convert : (withPrevKV : Bool) → Event → WatchEvent V) :
    Prop where
  type : ∀ p e, (convert p e).type = if e.delete then .delete else .put
  key : ∀ p e, (convert p e).key = e.kv.key
  value : ∀ p e, (convert p e).value = if e.delete then none else some (toV e.kv.value)
  revision : ∀ p e, (convert p e).revision = e.kv.modRevision
  isCreate : ∀ p e, (convert p e).isCreate
    = (!e.delete && decide (e.kv.createRevision = e.kv.modRevision))
  prevValue : ∀ p e, (convert p e).prevValue
    = if p then e.prevKV.map (fun kv => ⟨toV kv.value, kv.modRevision, 0⟩) else none

/-- 仮定を満たす関数。 -/
def watchEventOf (toV : Bytes → V) (withPrevKV : Bool) (e : Event) : WatchEvent V where
  type := if e.delete then .delete else .put
  key := e.kv.key
  value := if e.delete then none else some (toV e.kv.value)
  revision := e.kv.modRevision
  isCreate := !e.delete && decide (e.kv.createRevision = e.kv.modRevision)
  prevValue :=
    if withPrevKV then e.prevKV.map (fun kv => ⟨toV kv.value, kv.modRevision, 0⟩) else none

theorem converts_iff {convert : Bool → Event → WatchEvent V} :
    Converts toV convert ↔ convert = watchEventOf toV := by
  constructor
  · intro h
    funext p e
    exact WatchEvent.ext (h.type p e) (h.key p e) (h.value p e) (h.revision p e) (h.isCreate p e)
      (h.prevValue p e)
  · rintro rfl
    exact ⟨fun _ _ => rfl, fun _ _ => rfl, fun _ _ => rfl, fun _ _ => rfl, fun _ _ => rfl,
      fun _ _ => rfl⟩

/-- 取りこぼしのない watch `w` の report。 -/
structure Reports (convert : Bool → Event → WatchEvent V) (w : WatchRun) (op : WatchOperation V) :
    Prop where
  missed : w.missed = []
  key : op.request.key = watchPrefix w.prefix_
  withPrefix : op.request.withPrefix = decide ((watchPrefix w.prefix_).getLast? = some 0x2F)
  revision : op.request.revision = w.minRevision
  nonneg : 0 ≤ w.minRevision
  events : op.events <+: w.result.flatten.map (convert op.request.withPrevKV)
  quiet : ∀ resp ∈ op.responses, resp.isProgressNotify = false ∧ resp.events ≠ []

instance [DecidableEq V] (convert : Bool → Event → WatchEvent V) (w : WatchRun)
    (op : WatchOperation V) : Decidable (Reports convert w op) :=
  decidable_of_iff
    (w.missed = [] ∧ op.request.key = watchPrefix w.prefix_ ∧
      op.request.withPrefix = decide ((watchPrefix w.prefix_).getLast? = some 0x2F) ∧
      op.request.revision = w.minRevision ∧ 0 ≤ w.minRevision ∧
      op.events <+: w.result.flatten.map (convert op.request.withPrevKV) ∧
      ∀ resp ∈ op.responses, resp.isProgressNotify = false ∧ resp.events ≠ [])
    ⟨fun ⟨h₁, h₂, h₃, h₄, h₅, h₆, h₇⟩ => ⟨h₁, h₂, h₃, h₄, h₅, h₆, h₇⟩,
      fun h => ⟨h.missed, h.key, h.withPrefix, h.revision, h.nonneg, h.events, h.quiet⟩⟩

/-- 連番で書かれた履歴の revision。 -/
theorem sequential_revision_le (h : Sequential hist) :
    ∀ r ∈ hist, 2 ≤ r.revision ∧ r.revision ≤ hist.length + 1 := by
  induction h using EachAfter.concatRec with
  | nil => exact fun r hr => absurd hr List.not_mem_nil
  | concat l r h hr ih =>
    intro x hx
    rw [List.length_append, List.length_singleton]
    rcases List.mem_append.mp hx with hx | hx
    · have := ih x hx
      omega
    · rw [List.mem_singleton.mp hx, hr.revision]
      omega

theorem sequential_sorted (h : Sequential hist) : SortedBy RevRecord.revision hist := by
  induction h using EachAfter.concatRec with
  | nil => exact SortedBy.nil
  | concat l r h hr ih =>
    refine ih.concat fun x hx => ?_
    have := sequential_revision_le h x hx
    have := hr.revision
    omega

/-- 作成でない record の、鍵の作られた revision は、書かれた revision より前である。 -/
theorem sequential_createRevision (h : Sequential hist) : ∀ r ∈ hist,
    versionstampToInt64 r.getCreateRevision ≤ r.revision ∧
      (r.record.isCreate = false → versionstampToInt64 r.getCreateRevision < r.revision) := by
  induction h using EachAfter.concatRec with
  | nil => exact fun r hr => absurd hr List.not_mem_nil
  | concat l r h hr ih =>
    intro x hx
    rcases List.mem_append.mp hx with hx | hx
    · exact ih x hx
    · rw [List.mem_singleton.mp hx]
      cases hc : r.record.isCreate with
      | true =>
        have hself : versionstampToInt64 r.getCreateRevision = r.revision := by
          rw [RevRecord.getCreateRevision, hc]
          rfl
        exact ⟨hself.le, fun hf => by cases hf⟩
      | false =>
        obtain ⟨last, hlast, -, hcreate⟩ := hr.chain.other hc
        have hmem : last ∈ l := List.mem_of_mem_filter (List.mem_of_getLast? hlast)
        have hlt : versionstampToInt64 r.getCreateRevision < r.revision := by
          have h₁ := (ih last hmem).1
          have h₂ := (sequential_revision_le h last hmem).2
          have h₃ := hr.revision
          rw [RevRecord.getCreateRevision, hc, if_neg Bool.false_ne_true, hcreate]
          omega
        exact ⟨hlt.le, fun _ => hlt⟩

/-- 届く event は、log の record の event である。 -/
theorem watchEventOf_eventIn (h : Sequential hist) (hr : r ∈ hist) (withPrevKV : Bool) :
    (watchEventOf toV withPrevKV (eventIn cfg hist r)).toPersistedEvent = eventOf toV r := by
  obtain ⟨pre, post, rfl⟩ := List.append_of_mem hr
  have hnext := (EachAfter.at h).2
  have hcreate := (sequential_createRevision h r hr).2
  have hdelete : (eventIn cfg (pre ++ r :: post) r).delete = r.record.isDelete := by
    unfold eventIn
    split <;> rfl
  cases hd : r.record.isDelete with
  | true =>
    have hc : r.record.isCreate = false := by
      cases hc : r.record.isCreate with
      | false => rfl
      | true => exact absurd ((hnext.chain.create hc).1.symm.trans hd) (by decide)
    simp [watchEventOf, eventOf, hdelete, hd, hc, revRecordToEvent, RevRecord.revision, RevRecord.key]
  | false =>
    have hflag : decide (versionstampToInt64 r.getCreateRevision = versionstampToInt64 r.rev)
        = r.record.isCreate := by
      cases hc : r.record.isCreate with
      | true => simp [RevRecord.getCreateRevision, hc]
      | false => exact decide_eq_false (hcreate hc).ne
    simp [watchEventOf, eventOf, hdelete, hd, hflag, revRecordToEvent, RevRecord.revision,
      RevRecord.key]

/-! ## report の形 -/

section

variable {w : WatchRun} {op : WatchOperation V}

theorem lastRevision_of_quiet (hq : ∀ resp ∈ op.responses, resp.isProgressNotify = false) :
    lastRevision op = (op.events.getLast?.map (fun e => e.revision)).getD 0 := by
  have hfind : ∀ responses : List (WatchResponse V),
      (∀ resp ∈ responses, resp.isProgressNotify = false) →
      responses.reverse.findSome? WatchResponse.lastRevision?
        = (responses.flatMap WatchResponse.events).getLast?.map (fun e => e.revision) := by
    intro responses
    induction responses using List.reverseRecOn with
    | nil => exact fun _ => rfl
    | append_singleton responses resp ih =>
      intro hq
      rw [List.reverse_append, List.reverse_singleton, List.singleton_append, List.findSome?_cons,
        List.flatMap_append, List.flatMap_singleton, List.getLast?_append,
        ih fun x hx => hq x (List.mem_append_left _ hx), WatchResponse.lastRevision?,
        hq resp (List.mem_append_right _ List.mem_cons_self), if_neg Bool.false_ne_true]
      cases resp.events.getLast? <;> rfl
  rw [lastRevision, hfind op.responses hq]
  rfl

theorem firstExpectedRevision_of_quiet
    (hq : ∀ resp ∈ op.responses, resp.isProgressNotify = false ∧ resp.events ≠ []) :
    firstExpectedRevision op = if op.request.revision ≠ 0 then op.request.revision
      else (op.events.head?.map (fun e => e.revision)).getD 0 := by
  unfold firstExpectedRevision WatchOperation.events
  refine if_congr Iff.rfl rfl ?_
  cases hr : op.responses with
  | nil => rfl
  | cons resp responses =>
    obtain ⟨hp, hne⟩ := hq resp (hr ▸ List.mem_cons_self)
    obtain ⟨e, events, he⟩ := List.exists_cons_of_ne_nil hne
    simp [hp, he]

theorem Reports.wants {convert : Bool → Event → WatchEvent V} (h : Reports convert w op) (key : Key) :
    op.request.wants key = w.accepts key := by
  unfold WatchRequest.wants WatchRun.accepts doesEventHavePrefix
  rw [h.key, h.withPrefix]
  by_cases hslash : (watchPrefix w.prefix_).getLast? = some 0x2F
  · simp only [hslash, decide_true, if_true, Bool.true_and]
    by_cases hk : key = watchPrefix w.prefix_
    · simp [hk]
    · simp [hk]
  · simp [hslash]

/-- 合う record の列の先頭部分 `rs` の event が届いた watch。 -/
structure Delivered (cfg : Config) (toV : Bytes → V) (hist : List RevRecord) (op : WatchOperation V)
    (rs : List RevRecord) : Prop where
  events : op.events
    = rs.map (fun r => watchEventOf toV op.request.withPrevKV (eventIn cfg hist r))
  isPrefix : rs <+: hist.filter
    (fun r => op.request.wants r.key && decide (op.request.revision ≤ r.revision))
  quiet : ∀ resp ∈ op.responses, resp.isProgressNotify = false ∧ resp.events ≠ []

/-- report の event は、合う record の列の先頭部分の event である。 -/
theorem Reports.delivered {sh : Shim} {fanned : Nat} (h : Reports (watchEventOf toV) w op)
    (he : sh.Exact cfg) (hw : w.Inv cfg sh fanned) :
    ∃ rs, Delivered cfg toV sh.store.committed op rs := by
  obtain ⟨rs, hrs, hp⟩ := hw.delivered he h.missed h.nonneg
  have hevents := List.prefix_iff_eq_take.mp h.events
  rw [hrs, List.map_map, ← List.map_take] at hevents
  refine ⟨_, hevents, ?_, h.quiet⟩
  simp only [h.wants, h.revision]
  exact (List.take_prefix _ rs).trans hp

end

/-! ## 検査 -/

/-- record の request は、鍵を一つしか書かない。 -/
theorem distinctWrites_requestOf (toV : Bytes → V) (r : RevRecord) :
    (requestOf toV r).DistinctWrites := by
  unfold requestOf
  split
  · simp [create, Request.DistinctWrites, Operation.writeKey]
  · split
    · unfold delete
      split <;> simp [Request.DistinctWrites, Operation.writeKey, List.filterMap]
    · simp [update, Request.DistinctWrites, Operation.writeKey, List.filterMap]

/-- 連番の log の再生。 -/
structure Replays (toV : Bytes → V) (hist : List RevRecord) (replay : EtcdReplay V) : Prop where
  sequential : Sequential hist
  events : replay.events = hist.map (eventOf toV)
  attested : Attested replay
  /-- record の直前の revision の状態は、その前の record を表す。 -/
  states : ∀ pre r post, hist = pre ++ r :: post → ∃ st,
    replay.stateForRevision (r.revision - 1) = .ok st ∧ Represents toV pre st

theorem replays_newReplay (h : Sequential hist) (toV : Bytes → V) :
    Replays toV hist (newReplay (hist.map (requestOf toV))) := by
  have hrep := replayLoop_replayed toV h
  refine ⟨h, hrep.events, attested_newReplay fun request hm => ?_, ?_⟩
  · obtain ⟨r, -, rfl⟩ := List.mem_map.mp hm
    exact distinctWrites_requestOf toV r
  · rintro pre r post rfl
    have hrev := (EachAfter.at h).2.revision
    obtain ⟨st, hst, hst'⟩ := hrep.states (pre.length + 1) (by simp)
    refine ⟨st, ?_, by simpa using hst'⟩
    unfold EtcdReplay.stateForRevision newReplay
    rw [if_neg (by omega), show (r.revision - 1).toNat = pre.length + 1 by omega, hst]

section

variable {replay : EtcdReplay V} {op : WatchOperation V} {rs : List RevRecord}
  {matches_ : PersistedEvent V → WatchRequest → Bool}

theorem Replays.sorted (h : Replays toV hist replay) :
    replay.events.Pairwise (fun a b => a.revision < b.revision) := by
  rw [h.events, List.pairwise_map]
  exact sequential_sorted h.sequential

theorem Replays.low (h : Replays toV hist replay) : ∀ e ∈ replay.events, 2 ≤ e.revision := by
  rw [h.events]
  intro e he
  obtain ⟨r, hr, rfl⟩ := List.mem_map.mp he
  exact (sequential_revision_le h.sequential r hr).1

theorem Delivered.mem (h : Delivered cfg toV hist op rs) (hr : r ∈ rs) :
    r ∈ hist ∧ op.request.wants r.key = true ∧ op.request.revision ≤ r.revision := by
  simpa using h.isPrefix.subset hr

theorem Delivered.persisted (h : Delivered cfg toV hist op rs) (hs : Sequential hist) :
    op.events.map WatchEvent.toPersistedEvent = rs.map (eventOf toV) := by
  rw [h.events, List.map_map]
  exact List.map_congr_left fun r hr => watchEventOf_eventIn hs (h.mem hr).1 _

theorem Delivered.sublist (h : Delivered cfg toV hist op rs) (hrep : Replays toV hist replay) :
    (op.events.map WatchEvent.toPersistedEvent).Sublist replay.events := by
  rw [h.persisted hrep.sequential, hrep.events]
  exact (h.isPrefix.sublist.trans List.filter_sublist).map _

/-- 届くはずの event の record。 -/
theorem expectedEvents_eq (hrep : Replays toV hist replay)
    (hm : ∀ e watch, matches_ e watch = watch.wants e.key) (h0 : firstExpectedRevision op ≠ 0) :
    expectedEvents matches_ replay op = (hist.filter (fun r =>
      (decide (firstExpectedRevision op ≤ r.revision) && decide (r.revision ≤ lastRevision op) &&
        op.request.wants r.key) && decide (op.request.revision ≤ r.revision))).map
          (eventOf toV) := by
  have hsorted : (replay.eventsForWatch matches_ op.request).Pairwise
      (fun a b => a.revision ≤ b.revision) := (hrep.sorted.imp fun h => le_of_lt h).filter _
  rw [expectedEvents, if_pos h0, wantEvents_eq hsorted, EtcdReplay.eventsForWatch, hrep.events,
    List.filter_filter, List.filter_map]
  refine congrArg _ (List.filter_congr fun r _ => ?_)
  rw [Function.comp_apply, hm, Bool.eq_iff_iff]
  show (decide (_ ≤ r.revision) && decide (r.revision ≤ _) && op.request.wants r.key &&
    !(decide (r.revision < op.request.revision) || !op.request.wants r.key)) = true ↔ _
  cases op.request.wants r.key <;> simp

/-- watch に届いた event は、届くはずの event である。 -/
theorem Delivered.reliable (h : Delivered cfg toV hist op rs) (hrep : Replays toV hist replay)
    (hm : ∀ e watch, matches_ e watch = watch.wants e.key) :
    op.events.map WatchEvent.toPersistedEvent = expectedEvents matches_ replay op := by
  have hs := sequential_sorted hrep.sequential
  have hlast := lastRevision_of_quiet fun resp hresp => (h.quiet resp hresp).1
  have hfirst := firstExpectedRevision_of_quiet h.quiet
  rw [h.events, List.getLast?_map] at hlast
  rw [h.events, List.head?_map] at hfirst
  rw [h.persisted hrep.sequential]
  cases hz : rs.getLast? with
  | none =>
    -- 何も届いていない watch には、最後の revision がない
    obtain rfl := List.getLast?_eq_none_iff.mp hz
    by_cases h0 : firstExpectedRevision op = 0
    · rw [expectedEvents, if_neg (not_not.mpr h0)]
      rfl
    · rw [expectedEvents_eq hrep hm h0, List.filter_eq_nil_iff.mpr fun r hr => ?_]
      have hlow := (sequential_revision_le hrep.sequential r hr).1
      rw [hlast]
      simp only [List.getLast?_nil, Option.map_none, Option.getD_none, Bool.and_eq_true,
        decide_eq_true_eq]
      rintro ⟨⟨⟨-, hle⟩, -⟩, -⟩
      have hle := of_decide_eq_true hle
      omega
  | some z =>
    have hsub := h.isPrefix
    have hrs := (hs.filter _).sublist hsub.sublist
    obtain ⟨hzm, hmax⟩ := hrs.getLast?_eq_some_iff.mp hz
    obtain ⟨a, l, rfl⟩ := List.exists_cons_of_ne_nil (List.ne_nil_of_mem hzm)
    have hlast : lastRevision op = z.revision := by
      rw [hlast, hz]
      exact eventIn_modRevision
    have hlow : ∀ r ∈ a :: l, firstExpectedRevision op ≤ r.revision := by
      intro r hr
      rw [hfirst]
      split
      · exact (h.mem hr).2.2
      · show (watchEventOf toV _ (eventIn cfg hist a)).revision ≤ _
        rcases List.mem_cons.mp hr with rfl | hr
        · exact eventIn_modRevision.le
        · exact eventIn_modRevision.le.trans (hrs.lt_of_mem hr).le
    have h0 : firstExpectedRevision op ≠ 0 := by
      rw [hfirst]
      split
      · next h0 => exact h0
      · have hpos := (sequential_revision_le hrep.sequential a (h.mem List.mem_cons_self).1).1
        show (eventIn cfg hist a).kv.modRevision ≠ 0
        rw [eventIn_modRevision]
        show a.revision ≠ 0
        omega
    rw [expectedEvents_eq hrep hm h0]
    refine congrArg _ (SortedBy.eq_of_mem_iff hrs (hs.filter _) fun r => ?_)
    rw [List.mem_filter, hlast]
    simp only [Bool.and_eq_true, decide_eq_true_eq]
    constructor
    · intro hr
      obtain ⟨hmem, hwants, hrev⟩ := h.mem hr
      exact ⟨hmem, ⟨⟨hlow r hr, hmax r hr⟩, hwants⟩, hrev⟩
    · rintro ⟨hmem, ⟨⟨-, hle⟩, hwants⟩, hrev⟩
      exact (hs.filter _).mem_of_isPrefix hsub (List.mem_filter.mpr ⟨hmem, by simp [hwants, hrev]⟩)
        hzm hle

/-- 昇順に届く event は、revision だけで区別できる。 -/
theorem Delivered.increasing (h : Delivered cfg toV hist op rs) (hrep : Replays toV hist replay) :
    op.events.Pairwise (fun a b => a.revision < b.revision) := by
  have hpair := hrep.sorted.sublist (h.sublist hrep)
  rwa [List.pairwise_map] at hpair

theorem Delivered.low (h : Delivered cfg toV hist op rs) (hrep : Replays toV hist replay) :
    ∀ e ∈ op.events, 2 ≤ e.revision := fun _ he =>
  hrep.low _ ((h.sublist hrep).subset (List.mem_map_of_mem he))

/-- **`PrevKV` のほかの検査はどれも通る。** -/
theorem validateReport_eq_prevKV [DecidableEq V] {zeroValue : V} {expectUnique : Bool}
    {report : ClientReport V O} (hrep : Replays toV hist replay)
    (hm : ∀ e watch, matches_ e watch = watch.wants e.key)
    (h : ∀ op ∈ report.watch, ∃ rs, Delivered cfg toV hist op rs) :
    validateReport matches_ zeroValue expectUnique replay report
      = raiseOrPanic (validatePrevKV zeroValue replay report) := by
  have hgot : ∀ op ∈ report.watch,
      op.events.map WatchEvent.toPersistedEvent = expectedEvents matches_ replay op := by
    intro op hop
    obtain ⟨rs, hd⟩ := h op hop
    exact hd.reliable hrep hm
  obtain ⟨hordered, -, hcreate⟩ := checks_of_sublist hrep.attested
    (hrep.sorted.imp fun hlt => le_of_lt hlt) (fun e he => by have := hrep.low e he; omega)
    fun op hop => by
      obtain ⟨rs, hd⟩ := h op hop
      exact hd.sublist hrep
  have hunique : validateUnique expectUnique report = none := by
    refine validateUnique_eq_none_iff.mpr fun op hop => ?_
    obtain ⟨rs, hd⟩ := h op hop
    exact List.pairwise_map.mpr ((hd.increasing hrep).imp fun hlt heq =>
      hlt.ne (congrArg Prod.fst heq))
  have hatomic : validateAtomic report = none := by
    refine validateAtomic_of_increasing fun op hop => ?_
    obtain ⟨rs, hd⟩ := h op hop
    exact ⟨fun e he => by have := hd.low hrep e he; omega, hd.increasing hrep⟩
  have hbookmark : validateBookmarkable report = none := by
    refine validateBookmarkable_of_quiet fun op hop => ?_
    obtain ⟨rs, hd⟩ := h op hop
    exact ⟨fun resp hresp => (hd.quiet resp hresp).1, fun e he => by
      have := hd.low hrep e he; omega⟩
  simp only [validateReport, validateFilter_of_reliable hgot, hordered, hunique, hatomic, hbookmark,
    validateResumable_of_reliable hgot, hcreate, validateReliable_eq_none_iff.mpr hgot]
  rfl

/-! ## `PrevKV` -/

/-- 連番の履歴では、event の `PrevKV` は鍵の直前の record である。 -/
theorem sequential_prevKV (cfg : Config) (h : Sequential (pre ++ r :: post)) :
    (eventIn cfg (pre ++ r :: post) r).prevKV = (chainOf pre r.key).getLast?.map (kvOf cfg) := by
  have hwf := sequential_wf h
  rw [eventIn_prevKV cfg hwf, (EachAfter.at h).2.chain.prev]
  cases hl : (chainOf pre r.key).getLast? with
  | none =>
    refine congrArg _ (atRev_of_not_mem fun p hp => ?_)
    exact (hwf p hp).rev.ne_dummy
  | some last =>
    have hmem : last ∈ pre ++ r :: post :=
      List.mem_append_left _ (List.mem_of_mem_filter (List.mem_of_getLast? hl))
    have hsorted : SortedBy RevRecord.rev (pre ++ r :: post) :=
      (sequential_sorted h).imp_of_mem fun ha hb hab =>
        ((hwf _ ha).rev.lt_iff (hwf _ hb).rev).mpr hab
    exact congrArg _ (atRev_of_mem hsorted hmem)

/-- `PrevKV` の検査を通るのは、`PrevKV` を持つ作成の event でないときに限る。 -/
theorem attestsPrev_iff (zeroValue : V) (hrep : Replays toV hist replay) (hr : r ∈ hist) :
    replay.AttestsPrev zeroValue (watchEventOf toV true (eventIn cfg hist r)) ↔
      ((watchEventOf toV true (eventIn cfg hist r)).isCreate = true →
        (watchEventOf toV true (eventIn cfg hist r)).prevValue = none) := by
  have hevent : (watchEventOf toV true (eventIn cfg hist r)).toPersistedEvent = eventOf toV r :=
    watchEventOf_eventIn hrep.sequential hr true
  obtain ⟨pre, post, rfl⟩ := List.append_of_mem hr
  obtain ⟨st, hst, hrepresents⟩ := hrep.states pre r post rfl
  have hnext := (EachAfter.at hrep.sequential).2
  have hprev : (watchEventOf toV true (eventIn cfg (pre ++ r :: post) r)).prevValue
      = (chainOf pre r.key).getLast?.map
        (fun p => ⟨toV (kvOf cfg p).value, (kvOf cfg p).modRevision, 0⟩) := by
    show (eventIn cfg (pre ++ r :: post) r).prevKV.map _ = _
    rw [sequential_prevKV cfg hrep.sequential, Option.map_map]
    rfl
  unfold EtcdReplay.AttestsPrev
  rw [hprev, hevent]
  show (∃ st, replay.stateForRevision (r.revision - 1) = .ok st ∧ ∀ prevValue ∈ _,
    prevValue = { (st.keyValues.get? r.key).getD ⟨zeroValue, 0, 0⟩ with version := 0 }) ↔
      (r.record.isCreate = true → _)
  simp only [hst, Except.ok.injEq, exists_eq_left', hrepresents.keyValues]
  cases hl : (chainOf pre r.key).getLast? with
  | none => simp
  | some last =>
    cases hc : r.record.isCreate with
    | true =>
      -- 作り直しの `PrevKV` は tombstone で、直前の状態には鍵がない
      have hlow := (sequential_revision_le hrep.sequential last (List.mem_append_left _
        (List.mem_of_mem_filter (List.mem_of_getLast? hl)))).1
      rw [valueAt_eq_none (hnext.chain.create hc).2]
      refine iff_of_false (fun h => ?_) (fun h => by cases h rfl)
      have hrev : last.revision = 0 := congrArg ValueRevision.modRevision (h _ rfl)
      omega
    | false =>
      obtain ⟨x, hx, hlive, -⟩ := hnext.chain.other hc
      obtain rfl := Option.some.inj (hl.symm.trans hx)
      have hd : last.record.isDelete = false := by simpa [RevRecord.live] using hlive
      rw [valueAt_eq_some hl hlive]
      refine iff_of_true (fun prevValue hp => ?_) (fun h => by cases h)
      rw [← Option.some.inj hp]
      simp [kvOf, revRecordToEvent, hd, RevRecord.revision]

/-- report の検査を通るのは、`PrevKV` を求めた watch に、`PrevKV` を持つ作成の event が届いていないときに限る。 -/
theorem validateReport_iff [DecidableEq V] {zeroValue : V} {expectUnique : Bool}
    {report : ClientReport V O} (hrep : Replays toV hist replay)
    (hm : ∀ e watch, matches_ e watch = watch.wants e.key)
    (h : ∀ op ∈ report.watch, ∃ rs, Delivered cfg toV hist op rs) :
    validateReport matches_ zeroValue expectUnique replay report = .ok () ↔
      ∀ op ∈ report.watch, op.request.withPrevKV = true → ∀ event ∈ op.events,
        event.isCreate = true → event.prevValue = none := by
  rw [validateReport_eq_prevKV hrep hm h, raiseOrPanic_eq_ok_iff, validatePrevKV_eq_ok_none_iff]
  refine forall₂_congr fun op hop => imp_congr_right fun hp => forall₂_congr fun event hevent => ?_
  obtain ⟨rs, hd⟩ := h op hop
  rw [hd.events, hp] at hevent
  obtain ⟨r, hr, rfl⟩ := List.mem_map.mp hevent
  exact attestsPrev_iff zeroValue hrep (hd.mem hr).1

/-- report の検査は panic せず、破れる保証は `PrevKV` だけである。 -/
theorem validateReport_prevKV_or_ok [DecidableEq V] {zeroValue : V} {expectUnique : Bool}
    {report : ClientReport V O} (hrep : Replays toV hist replay)
    (hm : ∀ e watch, matches_ e watch = watch.wants e.key)
    (h : ∀ op ∈ report.watch, ∃ rs, Delivered cfg toV hist op rs) :
    validateReport matches_ zeroValue expectUnique replay report = .ok () ∨
      validateReport matches_ zeroValue expectUnique replay report = .error (.broke .prevKV) := by
  rw [validateReport_eq_prevKV hrep hm h]
  refine (validatePrevKV_eq_ok zeroValue fun op hop event hevent => ?_).imp
    (congrArg raiseOrPanic) (congrArg raiseOrPanic)
  obtain ⟨rs, hd⟩ := h op hop
  rw [hd.events] at hevent
  obtain ⟨r, hr, rfl⟩ := List.mem_map.mp hevent
  obtain ⟨pre, post, hsplit⟩ := List.append_of_mem (hd.mem hr).1
  obtain ⟨st, hst, -⟩ := hrep.states pre r post hsplit
  have hrevision : (watchEventOf toV op.request.withPrevKV (eventIn cfg hist r)).revision
      = r.revision := eventIn_modRevision
  exact ⟨st, hrevision.symm ▸ hst⟩

end

/-! ## run 全体 -/

/-- 連番の設定では、watch の系のどの run も、compaction のない run と同じことをする。 -/
theorem sequential_watchSys (hseq : cfg.useSequentialId = true) {as : List WatchLabel} {s : WatchSys}
    (hrun : runSteps (WatchSys.step cfg) .init as = some s) :
    s.Inv cfg ∧ s.shim.store.Written cfg := by
  refine run_invariant (P := fun s => WatchSys.Inv cfg s ∧ s.shim.store.Written cfg) ?_
    ⟨WatchSys.init_inv cfg, [], fun _ ha => absurd ha List.not_mem_nil, rfl⟩ hrun
  rintro s a s' ⟨hinv, hw⟩ hs
  cases WatchSys.step_effect hs with
  | shim a t ht =>
    cases a with
    | store a =>
      obtain ⟨st, hst, rfl⟩ := Option.map_eq_some_iff.mp ht
      rcases sequential_label hseq hw hst with rfl | ha
      · exact ⟨hinv, hw⟩
      · exact ⟨WatchSys.inv_step hinv (by simp [WatchLabel.compacts, ha]) hs,
          written_step hw hst (Or.inr ha)⟩
    | poll a =>
      refine ⟨WatchSys.inv_step hinv rfl hs, ?_⟩
      obtain ⟨p, -, rfl⟩ := Option.map_eq_some_iff.mp ht
      exact hw
  | opened prefix_ minRevision subscribed hrunning hrange => exact ⟨WatchSys.inv_step hinv rfl hs, hw⟩
  | fannedOut full events hev => exact ⟨WatchSys.inv_step hinv rfl hs, hw⟩
  | watched i a w w' hi he => exact ⟨WatchSys.inv_step hinv rfl hs, hw⟩

/-- 鍵を作り、消して、作り直した後に開いた watch。 -/
def recreatedWatchRun : List WatchLabel :=
  [.shim (.poll .connect), .shim (.store (.write (.create [47, 97] [1] 0) 0 1 2)),
    .shim (.store (.write (.delete [47, 97] 2) 0 2 3)), .shim (.store (.startCompact 3)),
    .shim (.store (.write (.create [47, 97] [4] 0) 0 3 4)), .open_ [47] 0 true, .watch 0 (.read 9),
    .watch 0 .sendInitial]

/-- その watch の report。`PrevKV` を求めた watch には、消えた値が届く。 -/
def recreatedReport (withPrevKV : Bool) : ClientReport Bytes Unit :=
  ⟨1, [], [⟨⟨[47], 0, true, withPrevKV⟩,
    [⟨[⟨⟨.put, [47, 97], some [1], 2, true⟩, none⟩], false, 2⟩,
      ⟨[⟨⟨.delete, [47, 97], none, 3, false⟩, if withPrevKV then some ⟨[1], 2, 0⟩ else none⟩,
        ⟨⟨.put, [47, 97], some [4], 4, true⟩, if withPrevKV then some ⟨[1], 3, 0⟩ else none⟩],
        false, 4⟩]⟩]⟩

end KubeFdb.Robustness
