import KubeFdb.Properties.Attempts
import KubeFdb.Properties.ListRange
import KubeFdb.System.Store

/-!
# やり直しの跡

`processRange` の batch は、transaction が失敗するたびに、同じ collector のまま別の snapshot でやり直される。
失敗した回がいくつあっても、どこで失敗しても、collector の答えと store は、成功した回だけの run と同じである
（`retries_leave_no_trace`）。

* `afterCollector`、`walCollector`、`countCollector`、`compactProcessor` — batch の間に変わる field は、`startBatch` が
  すべて捨てる。`lastTr` は捨てられないが、最後の batch の成功した回が入れ直す
* `recordCollector` — 持ち越した record は pointer で共有され、印と値は失敗した回の後にも残る。値は `endBatch` が
  入れ直す。印が余計に下りているのは、失敗した回が読んだ新しい record が、成功した回までに消えたときだけである。
  鍵の最後の record が消えるのは tombstone だけなので、その鍵に chunk はなく、どちらの印でも値は log から読まれる

結果の届かない commit（`commit_unknown_result`）は、失敗ではなく commit の一つとして扱う。その回の書き込みは
store に残り、どちらの run にもある。
-/

namespace KubeFdb

open Tuple

variable {σ κ ν β : Type} {cfg : Config}

/-- store と、途中の `processRange`。 -/
structure RetrySys (σ κ : Type) where
  store : Store
  call : RangeCall σ κ
  /-- 終わった batch の transaction の commit version。何も書かなければ `-1` である。 -/
  trs : List Int

def RetrySys.init (c : σ) : RetrySys σ κ := ⟨.init, .start c, []⟩

inductive RetryLabel where
  | store (a : StoreLabel)
  /-- batch の回が失敗する。 -/
  | fail (f : Failure)
  /-- batch の回が commit されたが、結果が届かない。 -/
  | unknown (n v : Nat)
  /-- batch の回が終わり、やり直されない。 -/
  | batch (n v : Nat)
deriving DecidableEq

def RetryLabel.isFail : RetryLabel → Bool
  | .fail _ => true
  | _ => false

/-- batch の transaction の commit。読むだけの transaction の commit は何もしない。 -/
def Store.commitBatch (s : Store) (tr : Db) (v : Nat) : Store :=
  if tr = s.db then s else { s with db := tr.commit v }

/-- 一手。`p` は、batch の transaction の番号ごとの collector の操作である。 -/
def RetrySys.step (cfg : Config) (p : Nat → Faulty σ κ ν) (range : RangeOf κ ν)
    (s : RetrySys σ κ) : RetryLabel → Option (RetrySys σ κ)
  | .store a => (s.store.step cfg a).map (fun t => { s with store := t })
  | .fail f =>
    if s.call.status = .running then
      some { s with call := s.call.failed (p s.trs.length) range s.store.db f }
    else none
  | .unknown n v =>
    let tr := (s.call.batch (p s.trs.length).toProcessor range n s.store.db).2
    if s.call.status = .running ∧ tr ≠ s.store.db ∧ s.store.db.CanCommit cfg v then
      some { s with
        store := s.store.commitBatch tr v
        call := s.call.failed (p s.trs.length) range s.store.db (.commit n) }
    else none
  | .batch n v =>
    let out := s.call.batch (p s.trs.length).toProcessor range n s.store.db
    if s.call.status = .running ∧ (out.2 = s.store.db ∨ s.store.db.CanCommit cfg v) then
      some ⟨s.store.commitBatch out.2 v, out.1,
        s.trs ++ [if out.2 = s.store.db then -1 else (v : Int)]⟩
    else none

/-- どの run の答えと store も、失敗した回を除いた run のものと同じであること。 -/
def NoTrace (cfg : Config) (p : Nat → Faulty σ κ ν) (range : RangeOf κ ν) (c : σ)
    (answer : RetrySys σ κ → β) : Prop :=
  ∀ (as : List RetryLabel) (s : RetrySys σ κ),
    runSteps (RetrySys.step cfg p range) (.init c) as = some s →
    ∃ t, runSteps (RetrySys.step cfg p range) (.init c) (as.filter (!·.isFail)) = some t ∧
      t.store = s.store ∧ answer t = answer s

/-! ## 対応 -/

/-- 失敗した回のある `processRange` と、ない `processRange` の対応 `R` が保つもの。 -/
structure RetrySim (cfg : Config) (p : Nat → Faulty σ κ ν) (range : RangeOf κ ν)
    (R : Store → RangeCall σ κ → RangeCall σ κ → Prop) : Prop where
  status : ∀ {st c e}, R st c e → c.status = e.status
  store : ∀ {st st' a c e}, R st c e → st.step cfg a = some st' → R st' c e
  fail : ∀ {st c e}, R st c e → c.status = .running → ∀ id f,
    R st (c.failed (p id) range st.db f) e
  batch : ∀ {st c e}, R st c e → c.status = .running → ∀ id n,
    (c.batch (p id).toProcessor range n st.db).2 = (e.batch (p id).toProcessor range n st.db).2 ∧
    ∀ v, R (st.commitBatch (c.batch (p id).toProcessor range n st.db).2 v)
      (c.batch (p id).toProcessor range n st.db).1 (e.batch (p id).toProcessor range n st.db).1
  unknown : ∀ {st c e}, R st c e → c.status = .running → ∀ id n v,
    (c.batch (p id).toProcessor range n st.db).2 ≠ st.db →
    R (st.commitBatch (c.batch (p id).toProcessor range n st.db).2 v)
      (c.failed (p id) range st.db (.commit n)) (e.failed (p id) range st.db (.commit n))

namespace RetrySim

variable {p : Nat → Faulty σ κ ν} {range : RangeOf κ ν}
  {R : Store → RangeCall σ κ → RangeCall σ κ → Prop} {s s' t : RetrySys σ κ}

/-- 対応 `R` を、store と transaction の列が同じ二つの状態に広げる。 -/
def Lift (R : Store → RangeCall σ κ → RangeCall σ κ → Prop) (s t : RetrySys σ κ) : Prop :=
  t.store = s.store ∧ t.trs = s.trs ∧ R s.store s.call t.call

/-- 失敗のほかの手は、両側で揃って進む。 -/
theorem lift_step (h : RetrySim cfg p range R) (hR : Lift R s t) {a : RetryLabel}
    (ha : a.isFail = false) (hs : RetrySys.step cfg p range s a = some s') :
    ∃ t', RetrySys.step cfg p range t a = some t' ∧ Lift R s' t' := by
  obtain ⟨_, c, _⟩ := s
  obtain ⟨st, e, trs⟩ := t
  obtain ⟨rfl, rfl, hR⟩ := hR
  simp only at hR hs
  have hstatus := h.status hR
  cases a with
  | fail f => cases ha
  | store a =>
    obtain ⟨st', hst, rfl⟩ := Option.map_eq_some_iff.mp hs
    exact ⟨⟨st', e, trs⟩, Option.map_eq_some_iff.mpr ⟨st', hst, rfl⟩, rfl, rfl, h.store hR hst⟩
  | unknown n v =>
    simp only [RetrySys.step, Option.ite_none_right_eq_some, Option.some.injEq] at hs
    obtain ⟨⟨hrun, hne, hcan⟩, rfl⟩ := hs
    have heq := (h.batch hR hrun trs.length n).1
    refine ⟨_, if_pos ⟨hstatus ▸ hrun, heq ▸ hne, hcan⟩, ?_, rfl, h.unknown hR hrun _ n v hne⟩
    simp only [heq]
  | batch n v =>
    simp only [RetrySys.step, Option.ite_none_right_eq_some, Option.some.injEq] at hs
    obtain ⟨⟨hrun, hcan⟩, rfl⟩ := hs
    obtain ⟨heq, hR'⟩ := h.batch hR hrun trs.length n
    refine ⟨_, if_pos ⟨hstatus ▸ hrun, heq ▸ hcan⟩, ?_, ?_, hR' v⟩
    · simp only [heq]
    · simp only [heq]

/-- 失敗した回は、対応を崩さない。 -/
theorem lift_fail (h : RetrySim cfg p range R) (hR : Lift R s t) {a : RetryLabel}
    (ha : a.isFail = true) (hs : RetrySys.step cfg p range s a = some s') : Lift R s' t := by
  cases a with
  | store a => cases ha
  | unknown n v => cases ha
  | batch n v => cases ha
  | fail f =>
    simp only [RetrySys.step, Option.ite_none_right_eq_some, Option.some.injEq] at hs
    obtain ⟨hrun, rfl⟩ := hs
    exact ⟨hR.1, hR.2.1, h.fail hR.2.2 hrun _ f⟩

/-- 対応する状態の答えが同じなら、失敗した回は跡を残さない。 -/
theorem noTrace (h : RetrySim cfg p range R) {c : σ} (hinit : R .init (.start c) (.start c))
    {answer : RetrySys σ κ → β}
    (hanswer : ∀ {st a b trs}, R st a b → answer ⟨st, b, trs⟩ = answer ⟨st, a, trs⟩) :
    NoTrace cfg p range c answer := by
  intro as s hr
  obtain ⟨t, ht, hstore, htrs, hR⟩ := runSteps_filter (fun a : RetryLabel => !a.isFail) (R := Lift R)
    (fun _ _ _ a hR ha hs => h.lift_step (a := a) hR (by simpa using ha) hs)
    (fun _ _ _ a hR ha hs => h.lift_fail (a := a) hR (by simpa using ha) hs) ⟨rfl, rfl, hinit⟩ hr
  refine ⟨t, ht, hstore, ?_⟩
  obtain ⟨_, a, _⟩ := s
  obtain ⟨st, b, trs⟩ := t
  obtain rfl : st = _ := hstore
  obtain rfl : trs = _ := htrs
  exact hanswer hR

end RetrySim

/-! ## 捨てられる batch -/

/-- `startBatch` が捨てるものだけが違う、二つの `processRange`。 -/
structure Restarts (p : Processor σ κ ν) (c e : RangeCall σ κ) : Prop where
  status : c.status = e.status
  beginKey : c.beginKey = e.beginKey
  collector : p.startBatch c.collector = p.startBatch e.collector

/-- 失敗した回の書き換えを `startBatch` がすべて捨てるなら、対応は保たれる。 -/
theorem restarts_sim {p : Faulty σ κ ν} {range : RangeOf κ ν}
    (hp : ∀ s db it f, p.startBatch (p.failed s db it f) = p.startBatch s) :
    RetrySim cfg (fun _ => p) range (fun _ => Restarts p.toProcessor) where
  status h := h.status
  store h _ := h
  fail h _ _ f := ⟨h.status, h.beginKey, (hp ..).trans h.collector⟩
  batch h _ _ n := by
    rw [RangeCall.batch_congr h.beginKey h.collector]
    exact ⟨rfl, fun _ => ⟨rfl, rfl, rfl⟩⟩
  unknown h _ _ n _ _ := by
    refine ⟨h.status, h.beginKey, ?_⟩
    simp only [RangeCall.failed, hp, h.collector]


/-! ## compaction -/

namespace CompactTrProcessor

variable (id : Nat)

/-- `lastTr` を忘れた `processRange`。 -/
def erase (c : RangeCall CompactTrProcessor RevKey) : CompactCall :=
  ⟨c.collector.processor, c.beginKey, c.status⟩

theorem batchLoop_eq : ∀ (n : Nat) (c : CompactTrProcessor) (tr : Db) (it : RevIterator)
    (last : Option RevKey), batchLoop (faulty id).toProcessor n c tr it last =
      ({ c with processor := (batchLoop CompactProcessor.processor n c.processor tr it last).1 },
        (batchLoop CompactProcessor.processor n c.processor tr it last).2)
  | 0, _, _, _, _ => rfl
  | n + 1, c, tr, it, last => by
    have hnext : (faulty id).next c tr it =
        ({ c with processor := (CompactProcessor.processor.next c.processor tr it).1 },
          (CompactProcessor.processor.next c.processor tr it).2) := rfl
    rw [batchLoop, batchLoop, hnext]
    obtain ⟨c', tr', r⟩ := CompactProcessor.processor.next c.processor tr it
    cases r with
    | error e => rfl
    | ok r =>
      obtain ⟨it', lastKey, more⟩ := r
      simp only
      split
      · rw [batchLoop_eq n]
      · rfl

/-- 成功した batch は、`lastTr` を忘れた batch と同じで、最後の batch なら `lastTr` が入る。 -/
theorem batch_eq (c : RangeCall CompactTrProcessor RevKey) (range : RangeOf RevKey RevValue)
    (n : Nat) (db : Db) :
    ∃ lastTr, c.batch (faulty id).toProcessor range n db =
        (⟨⟨((erase c).batch CompactProcessor.processor range n db).1.collector, lastTr⟩,
          ((erase c).batch CompactProcessor.processor range n db).1.beginKey,
          ((erase c).batch CompactProcessor.processor range n db).1.status⟩,
          ((erase c).batch CompactProcessor.processor range n db).2) ∧
      (((erase c).batch CompactProcessor.processor range n db).1.status = .done →
        lastTr = some id) := by
  have hloop := batchLoop_eq id (n + 1) ((faulty id).startBatch c.collector) db
    (range db c.beginKey) none
  have hstart : ((faulty id).startBatch c.collector).processor
      = CompactProcessor.processor.startBatch c.collector.processor := rfl
  rw [hstart] at hloop
  simp only [RangeCall.batch, processBatch, hloop, erase]
  obtain ⟨c', tr', r⟩ := batchLoop CompactProcessor.processor (n + 1)
    (CompactProcessor.processor.startBatch c.collector.processor) db (range db c.beginKey) none
  cases r with
  | error e => exact ⟨_, rfl, fun h => absurd h (by simp)⟩
  | ok res =>
    obtain ⟨lastKey, more⟩ := res
    cases more with
    | true => exact ⟨_, rfl, fun h => absurd h (by simp [CompactProcessor.processor, CompactProcessor.endBatch])⟩
    | false => exact ⟨_, rfl, fun _ => rfl⟩

/-- `lastTr` と、batch の間の watermark だけが違う、二つの `processRange`。 -/
structure Restarts (c e : RangeCall CompactTrProcessor RevKey) : Prop where
  status : c.status = e.status
  beginKey : c.beginKey = e.beginKey
  lastTr : c.status = .done → c.collector.lastTr = e.collector.lastTr

theorem sim (cfg : Config) (range : RangeOf RevKey RevValue) :
    RetrySim cfg faulty range (fun _ => Restarts) where
  status h := h.status
  store h _ := h
  fail h hrun _ _ := ⟨h.status, h.beginKey, fun hd => absurd (hrun.symm.trans hd) (by simp)⟩
  unknown h hrun _ _ _ _ := ⟨h.status, h.beginKey, fun hd => absurd (hrun.symm.trans hd) (by simp)⟩
  batch {st c e} h _ id n := by
    have heq : (erase c).batch CompactProcessor.processor range n st.db
        = (erase e).batch CompactProcessor.processor range n st.db :=
      RangeCall.batch_congr (c := erase c) (e := erase e) h.beginKey rfl range n st.db
    obtain ⟨lastTr, hc, hclast⟩ := batch_eq id c range n st.db
    obtain ⟨lastTr', he, helast⟩ := batch_eq id e range n st.db
    rw [hc, he, heq]
    exact ⟨rfl, fun _ => ⟨rfl, rfl, fun hd => (hclast (heq ▸ hd)).trans (helast hd).symm⟩⟩

end CompactTrProcessor

/-! ## record の collector -/

/-- 持ち越した候補より新しい、鍵 `k` の record が commit されていること。 -/
def Overtaken (committed : List RevRecord) (begin_ : Option IndexKey) (k : Key) : Prop :=
  ∃ r ∈ committed, r.key = k ∧ ∀ b ∈ begin_, b < indexKey k r.rev

section

variable {st st' : Store} {recs : List RevRecord} {prefix_ startKey : Key} {range : Bytes × Bytes}
  {begin_ : Option IndexKey} {k : Key}

theorem Overtaken.mono {committed committed' : List RevRecord}
    (h : Overtaken committed begin_ k) (hsub : committed ⊆ committed') :
    Overtaken committed' begin_ k := by
  obtain ⟨r, hr, hk, hb⟩ := h
  exact ⟨r, hsub hr, hk, hb⟩

/-- 失敗した回が読んだ entry の record は、store に commit されている。 -/
theorem Store.Inv.overtaken (h : st.Inv cfg recs) (hr : listRange prefix_ startKey = .ok range)
    {e : IndexKey × IndexTuple} (he : e ∈ indexRange range st.db begin_) :
    Overtaken st.committed begin_ e.1.key := by
  obtain ⟨rest, hrest, -, hmem⟩ := exists_rest h.tracks.holds hr begin_
  rw [hrest] at he
  obtain ⟨r, hr', rfl⟩ := List.mem_map.mp he
  obtain ⟨hrec, -, hb⟩ := (hmem r).mp hr'
  exact ⟨r, h.tracks.sub r hrec, rfl, hb⟩

/-- 追い越された鍵は、次に読む entry の鍵であるか、消えていて chunk がない。 -/
theorem Overtaken.head (ho : Overtaken st.committed begin_ k) (h : st.Inv cfg recs)
    (hr : listRange prefix_ startKey = .ok range)
    (hb : ∃ b ∈ begin_, b.key = k ∧ inListRange prefix_ startKey b.key = true) :
    NoChunks st.db.byKeyCurrent k ∨ ∃ e ∈ (indexRange range st.db begin_).head?, e.1.key = k := by
  obtain ⟨r, hrc, hrk, hbr⟩ := ho
  obtain ⟨b, hbm, hbk, hin⟩ := hb
  obtain ⟨q, hq⟩ := exists_newest RevRecord.key hrc hrk
  obtain ⟨hqc, hqk, hmax⟩ := (newest_eq_some_iff h.tracks.sorted).mp hq
  cases hd : q.record.isDelete with
  | true =>
    left
    rcases h.tracks.current k with hno | ⟨q', hq', hlive, -⟩
    · exact hno
    · rw [← Option.some.inj (hq.symm.trans hq'), hd] at hlive
      cases hlive
  | false =>
    right
    obtain ⟨rest, hrest, hord, hmem⟩ := exists_rest h.tracks.holds hr begin_
    have hqr : q ∈ rest := by
      refine (hmem q).mpr ⟨h.tracks.lastLive k q hq hd, hqk ▸ hbk ▸ hin, fun b' hb' => ?_⟩
      refine (hbr b' hb').trans_le ?_
      rw [hqk]
      exact Prod.Lex.le_iff.mpr (Or.inr ⟨rfl, hmax r hrc hrk⟩)
    cases rest with
    | nil => exact absurd hqr List.not_mem_nil
    | cons r₀ l =>
      refine ⟨indexEntry r₀, by rw [hrest]; rfl, ?_⟩
      -- 次に読む entry は、鍵が `k` の `b` と `q` に挟まれる
      have hlo : b < indexKey r₀.key r₀.rev :=
        ((hmem r₀).mp List.mem_cons_self).2.2 b hbm
      have hhi : indexKey r₀.key r₀.rev ≤ indexKey q.key q.rev := by
        rcases List.mem_cons.mp hqr with rfl | hql
        · exact le_rfl
        · exact (hord.lt_of_mem hql).le
      have hlo' : b.key ≤ r₀.key := Prod.Lex.monotone_fst _ _ hlo.le
      have hhi' : r₀.key ≤ q.key := Prod.Lex.monotone_fst _ _ hhi
      exact le_antisymm (hqk ▸ hhi') (hbk ▸ hlo')

end

namespace Shared.RecordCollector

variable {τ : Type} {p : Shared.InnerProcessor σ} {q : KubeFdb.InnerProcessor τ} {v : InnerView p q}

/-- 二つの `processRange` が、同じ値の collector の `processRange` と対応すること。 -/
structure Restarts (cfg : Config) (v : InnerView p q) (prefix_ startKey : Key) (st : Store)
    (c e : RangeCall (Shared.RecordCollector σ) IndexKey) : Prop where
  inv : ∃ recs, st.Inv cfg recs
  agrees : ∃ u : RangeCall (KubeFdb.RecordCollector τ) IndexKey,
    CallAgrees v (Overtaken st.committed u.beginKey)
      (fun k => inListRange prefix_ startKey k = true) c u ∧
    CallAgrees v (Overtaken st.committed u.beginKey)
      (fun k => inListRange prefix_ startKey k = true) e u

variable {prefix_ startKey : Key} {range : Bytes × Bytes} {st : Store}
  {c : RangeCall (Shared.RecordCollector σ) IndexKey}
  {u : RangeCall (KubeFdb.RecordCollector τ) IndexKey}

/-- 成功した batch は、値の collector の batch と対応し、何も書かない。 -/
theorem CallAgrees.batch_of_inv {recs : List RevRecord} (hi : st.Inv cfg recs)
    (hr : listRange prefix_ startKey = .ok range)
    (h : CallAgrees v (Overtaken st.committed u.beginKey)
      (fun k => inListRange prefix_ startKey k = true) c u)
    (hrun : u.status = .running) (n : Nat) :
    CallAgrees v (fun _ => False) (fun k => inListRange prefix_ startKey k = true)
        (c.batch (faulty p cfg).toProcessor (indexRange range) n st.db).1
        (u.batch (KubeFdb.RecordCollector.processor q cfg) (indexRange range) n st.db).1 ∧
      (c.batch (faulty p cfg).toProcessor (indexRange range) n st.db).2 = st.db := by
  obtain ⟨hagrees, hdb, -⟩ := h.batch cfg n hrun (fun k ho hb => ho.head hi hr hb) (fun e he => by
    obtain ⟨rest, hrest, -, hmem⟩ := exists_rest hi.tracks.holds hr u.beginKey
    rw [hrest] at he
    obtain ⟨r, hr', rfl⟩ := List.mem_map.mp he
    exact ((hmem r).mp hr').2.1)
  exact ⟨hagrees, hdb⟩

theorem sim (cfg : Config) (v : InnerView p q) (hr : listRange prefix_ startKey = .ok range) :
    RetrySim cfg (fun _ => faulty p cfg) (indexRange range) (Restarts cfg v prefix_ startKey) where
  status h := by
    obtain ⟨u, hc, he⟩ := h.agrees
    exact hc.status.trans he.status.symm
  store {st st' a c e} h hs := by
    obtain ⟨recs, hi⟩ := h.inv
    obtain ⟨recs', heff, hi'⟩ := Store.inv_step hi hs
    obtain ⟨u, hc, he⟩ := h.agrees
    have hmono : ∀ k, Overtaken st.committed u.beginKey k → Overtaken st'.committed u.beginKey k :=
      fun k ho => ho.mono heff.committed_isPrefix.subset
    exact ⟨⟨recs', hi'⟩, u, hc.imp hmono, he.imp hmono⟩
  fail {st c e} h hrun id f := by
    obtain ⟨recs, hi⟩ := h.inv
    obtain ⟨u, hc, he⟩ := h.agrees
    exact ⟨⟨recs, hi⟩, u, hc.failed cfg (hc.status ▸ hrun) st.db f fun x hx => hi.overtaken hr hx, he⟩
  batch {st c e} h hrun id n := by
    obtain ⟨recs, hi⟩ := h.inv
    obtain ⟨u, hc, he⟩ := h.agrees
    have hurun : u.status = .running := hc.status ▸ hrun
    obtain ⟨hc', hcdb⟩ := hc.batch_of_inv hi hr hurun n
    obtain ⟨he', hedb⟩ := he.batch_of_inv hi hr hurun n
    refine ⟨hcdb.trans hedb.symm, fun w => ?_⟩
    rw [hcdb, Store.commitBatch, if_pos rfl]
    exact ⟨⟨recs, hi⟩, _, hc'.imp fun _ hf => hf.elim, he'.imp fun _ hf => hf.elim⟩
  unknown {st c e} h hrun id n w hne := by
    obtain ⟨recs, hi⟩ := h.inv
    obtain ⟨u, hc, he⟩ := h.agrees
    exact absurd (hc.batch_of_inv hi hr (hc.status ▸ hrun) n).2 hne

/-- 走り始めは対応する。 -/
theorem restarts_init (cfg : Config) (v : InnerView p q) (prefix_ startKey : Key)
    (maxRevision : Int) {a : σ} {b : τ} (hbase : v.base a = [])
    (hrel : ∀ h db, v.Rel db h (p.startBatch a) (q.startBatch b)) :
    Restarts cfg v prefix_ startKey .init (.start (newRecordCollector maxRevision a))
      (.start (newRecordCollector maxRevision a)) := by
  have hagrees : CallAgrees v (Overtaken Store.init.committed none)
      (fun k => inListRange prefix_ startKey k = true)
      (.start (newRecordCollector maxRevision a))
      (.start (KubeFdb.newRecordCollector maxRevision b)) := by
    refine ⟨rfl, rfl, fun _ => ⟨⟨rfl, rfl, hrel _, .none, ?_, ?_⟩, fun r hr => by cases hr⟩,
      fun hd => by cases hd⟩
    · show (v.base a ++ []).Nodup
      rw [hbase]
      exact List.nodup_nil
    · intro x hx
      have hx' : x ∈ v.base a ++ [] := hx
      rw [hbase] at hx'
      cases hx'
  exact ⟨⟨[], Store.init_inv cfg⟩, .start (KubeFdb.newRecordCollector maxRevision b), hagrees, hagrees⟩

end Shared.RecordCollector

/-! ## 答え -/

/-- `listWithCollector` の答え。`output` は、`firstRev` のほかに collector から読まれるものである。 -/
def Shared.listAnswer (maxRevision : Int) (output : Shared.RecordCollector σ → β)
    (s : RetrySys (Shared.RecordCollector σ) IndexKey) : Option (Except Err (Int × β)) :=
  match s.call.status with
  | .running => none
  | .failed e => some (.error e)
  | .done =>
    if s.call.collector.firstRev < maxRevision then some (.error .futureRev)
    else some (.ok (s.call.collector.firstRev, output s.call.collector))

/-- `listCollector` の結果。`LatestForKey` を除いた record と、`listKeyValue` がそれから作る値である。 -/
def Shared.listOutput (cfg : Config) (c : Shared.RecordCollector Shared.ListCollector) :
    List RevRecord × List KeyValue :=
  let records := c.inner.records.map (RecordRef.load c.heap)
  (records.map RevRecord.unmarked, toKeyValues cfg records)

/-- `countCollector` の結果。 -/
def Shared.countOutput (c : Shared.RecordCollector CountCollector) : Nat := c.inner.totalCount

/-- `afterAll` と `afterBatch` の結果。`afterBatch` は一つの batch で終わるので、途中の結果も含む。 -/
def afterAnswer (s : RetrySys AfterCollector RevKey) : Int × AfterResult × CallStatus :=
  (s.call.collector.latestRev, s.call.collector.toResult, s.call.status)

/-- `ReadWAL` の結果。 -/
def walAnswer (s : RetrySys WalCollector RevKey) : List RevRecord × CallStatus :=
  (s.call.collector.records, s.call.status)

/-- `Compact` の結果。終われば、`lastTr` の commit version を返す。 -/
def compactAnswer (s : RetrySys CompactTrProcessor RevKey) : Option (Except Err (Option Int)) :=
  match s.call.status with
  | .running => none
  | .failed e => some (.error e)
  | .done => some (.ok (s.call.collector.lastTr.bind (s.trs[·]?)))

/-- `listKeyValue` は印を読まない。 -/
theorem toKeyValues_unmarked (cfg : Config) (records : List RevRecord) :
    toKeyValues cfg (records.map RevRecord.unmarked) = toKeyValues cfg records := by
  unfold toKeyValues
  rw [List.map_map]
  rfl

section

variable {τ : Type} {p : Shared.InnerProcessor σ} {q : KubeFdb.InnerProcessor τ}
  {prefix_ startKey : Key} {range : Bytes × Bytes}

theorem Shared.RecordCollector.noTrace (cfg : Config) (v : Shared.InnerView p q)
    (hr : listRange prefix_ startKey = .ok range) (maxRevision : Int) {a : σ} {b : τ}
    (hbase : v.base a = []) (hrel : ∀ h db, v.Rel db h (p.startBatch a) (q.startBatch b))
    {output : Shared.RecordCollector σ → β}
    (houtput : ∀ {d d' c}, Shared.RecordCollector.Answers v d c →
      Shared.RecordCollector.Answers v d' c → output d' = output d) :
    NoTrace cfg (fun _ => Shared.RecordCollector.faulty p cfg) (indexRange range)
      (Shared.newRecordCollector maxRevision a) (Shared.listAnswer maxRevision output) := by
  refine (Shared.RecordCollector.sim cfg v hr).noTrace
    (Shared.RecordCollector.restarts_init cfg v prefix_ startKey maxRevision hbase hrel) ?_
  intro st c e trs h
  obtain ⟨u, hc, he⟩ := h.agrees
  have hstatus := hc.status
  have hstatus' := he.status
  cases hu : u.status with
  | running =>
    rw [hu] at hstatus hstatus'
    simp only [Shared.listAnswer, hstatus, hstatus']
  | failed err =>
    rw [hu] at hstatus hstatus'
    simp only [Shared.listAnswer, hstatus, hstatus']
  | done =>
    rw [hu] at hstatus hstatus'
    have hfirst := (he.done hu).firstRev.trans (hc.done hu).firstRev.symm
    simp only [Shared.listAnswer, hstatus, hstatus', hfirst, houtput (hc.done hu) (he.done hu)]

/-- `records` は、印を除けば、値の collector の `records` である。 -/
theorem Shared.RecordCollector.Answers.unmarked_records
    {d : Shared.RecordCollector Shared.ListCollector}
    {c : KubeFdb.RecordCollector KubeFdb.ListCollector}
    (h : Shared.RecordCollector.Answers Shared.listView d c) :
    (d.inner.records.map (RecordRef.load d.heap)).map RevRecord.unmarked
      = c.inner.records.map RevRecord.unmarked := by
  have hrecords : List.Forall₂ (fun ref r => (RecordRef.load d.heap ref).unmarked = r.unmarked)
      d.inner.records c.inner.records := (h.inner .empty).records
  rw [List.map_map, ← List.forall₂_eq_eq_eq, List.forall₂_map_left_iff, List.forall₂_map_right_iff]
  exact hrecords

theorem Shared.listOutput_eq (cfg : Config) {d d' : Shared.RecordCollector Shared.ListCollector}
    {c : KubeFdb.RecordCollector KubeFdb.ListCollector}
    (h : Shared.RecordCollector.Answers Shared.listView d c)
    (h' : Shared.RecordCollector.Answers Shared.listView d' c) :
    Shared.listOutput cfg d' = Shared.listOutput cfg d := by
  have hrecords := h'.unmarked_records.trans h.unmarked_records.symm
  have hkvs := congrArg (toKeyValues cfg) hrecords
  rw [toKeyValues_unmarked, toKeyValues_unmarked] at hkvs
  exact Prod.ext hrecords hkvs

theorem Shared.countOutput_eq {d d' : Shared.RecordCollector CountCollector}
    {c : KubeFdb.RecordCollector CountCollector}
    (h : Shared.RecordCollector.Answers Shared.countView d c)
    (h' : Shared.RecordCollector.Answers Shared.countView d' c) :
    Shared.countOutput d' = Shared.countOutput d := by
  have hinner : Shared.countProcessor.startBatch d'.inner = Shared.countProcessor.startBatch d.inner :=
    (h'.inner .empty).trans (h.inner .empty).symm
  injection hinner

end

theorem AfterCollector.noTrace (cfg : Config) (params : AfterParams)
    (range : RangeOf RevKey RevValue) :
    NoTrace cfg (fun _ => AfterCollector.faulty cfg params) range newAfterCollector afterAnswer := by
  refine (restarts_sim (AfterCollector.startBatch_failed cfg params)).noTrace ⟨rfl, rfl, rfl⟩ ?_
  intro st a b trs h
  -- `latestRev`、`compactRevision`、`events` は、`startBatch` の捨てない field である
  have hresult : ∀ c : AfterCollector,
      ((AfterCollector.faulty cfg params).startBatch c).toResult = c.toResult := fun _ => rfl
  have hlatest : ∀ c : AfterCollector,
      ((AfterCollector.faulty cfg params).startBatch c).latestRev = c.latestRev := fun _ => rfl
  unfold afterAnswer
  rw [← hresult, ← hlatest, ← h.collector, hresult, hlatest, h.status]

theorem WalCollector.noTrace (cfg : Config) :
    NoTrace cfg (fun _ => WalCollector.faulty) walRange newWalCollector walAnswer := by
  refine (restarts_sim WalCollector.startBatch_failed).noTrace ⟨rfl, rfl, rfl⟩ ?_
  intro st a b trs h
  have hrecords : a.collector.records = b.collector.records := by
    injection h.collector
  unfold walAnswer
  rw [hrecords, h.status]

theorem CompactTrProcessor.noTrace (cfg : Config) (range : RangeOf RevKey RevValue) :
    NoTrace cfg CompactTrProcessor.faulty range .new compactAnswer := by
  refine (CompactTrProcessor.sim cfg range).noTrace ⟨rfl, rfl, fun _ => rfl⟩ ?_
  intro st a b trs h
  have hstatus := h.status
  cases ha : a.status with
  | running =>
    rw [ha] at hstatus
    simp only [compactAnswer, ha, ← hstatus]
  | failed e =>
    rw [ha] at hstatus
    simp only [compactAnswer, ha, ← hstatus]
  | done =>
    rw [ha] at hstatus
    simp only [compactAnswer, ha, ← hstatus, h.lastTr ha]

/-- どの collector でも、失敗した回は、最後の結果にも store にも跡を残さない。 -/
theorem retries_leave_no_trace (cfg : Config) :
    (∀ (prefix_ startKey : Key) (range : Bytes × Bytes), listRange prefix_ startKey = .ok range →
      ∀ maxRevision : Int,
        (∀ (limit : Int) (keysOnly : Bool),
          NoTrace cfg (fun _ => Shared.RecordCollector.faulty Shared.listProcessor cfg)
            (indexRange range)
            (Shared.newRecordCollector maxRevision (Shared.newListCollector limit keysOnly))
            (Shared.listAnswer maxRevision (Shared.listOutput cfg))) ∧
        NoTrace cfg (fun _ => Shared.RecordCollector.faulty Shared.countProcessor cfg)
          (indexRange range) (Shared.newRecordCollector maxRevision (⟨0, 0⟩ : CountCollector))
          (Shared.listAnswer maxRevision Shared.countOutput)) ∧
    (∀ params : AfterParams,
      NoTrace cfg (fun _ => AfterCollector.faulty cfg params) (afterRange params.minRevision)
        newAfterCollector afterAnswer) ∧
    NoTrace cfg (fun _ => WalCollector.faulty) walRange newWalCollector walAnswer ∧
    ∀ endRev : Int,
      NoTrace cfg CompactTrProcessor.faulty (compactRange endRev) .new compactAnswer := by
  refine ⟨fun prefix_ startKey range hr maxRevision => ⟨fun limit keysOnly => ?_, ?_⟩,
    fun params => AfterCollector.noTrace cfg params _, WalCollector.noTrace cfg,
    fun endRev => CompactTrProcessor.noTrace cfg _⟩
  · exact Shared.RecordCollector.noTrace cfg Shared.listView hr maxRevision
      (b := KubeFdb.newListCollector limit keysOnly) rfl
      (fun _ _ => ⟨rfl, rfl, .nil, .nil⟩) (Shared.listOutput_eq cfg)
  · exact Shared.RecordCollector.noTrace cfg Shared.countView hr maxRevision rfl
      (fun _ _ => rfl) Shared.countOutput_eq

/-- revision 2 の `List` が `/a` を読み、次の batch が、更新された `/a` を読んだ後と commit とで失敗する。 -/
def retriedListRun : List RetryLabel :=
  [.store (.write (.create [47, 97] [1] 0) 0 1 2), .store (.write (.create [47, 98] [2] 0) 0 2 3),
    .batch 0 3, .store (.write (.update [47, 97] [3] 2 0) 0 3 4), .fail (.next 1), .fail (.commit 5),
    .batch 5 4]

/-- 持ち越した `/a` の record は、失敗した回に印を下ろされるが、`List` の答えは変わらない。 -/
theorem retries_leave_no_trace_of_retriedList :
    ∃ s t, listRange [47] [47] = .ok ([2, 47, 0], [2, 48]) ∧
      runSteps (RetrySys.step .default
        (fun _ => Shared.RecordCollector.faulty Shared.listProcessor .default)
        (indexRange ([2, 47, 0], [2, 48])))
        (.init (Shared.newRecordCollector 2 (Shared.newListCollector 0 false))) retriedListRun
        = some s ∧
      runSteps (RetrySys.step .default
        (fun _ => Shared.RecordCollector.faulty Shared.listProcessor .default)
        (indexRange ([2, 47, 0], [2, 48])))
        (.init (Shared.newRecordCollector 2 (Shared.newListCollector 0 false)))
        (retriedListRun.filter (!·.isFail)) = some t ∧
      Shared.listAnswer 2 (fun c => (Shared.listOutput .default c).2) s
        = some (.ok (3, [⟨[47, 97], 2, 2, 0, [1]⟩])) ∧
      t.store = s.store ∧
      Shared.listAnswer 2 (Shared.listOutput .default) t
        = Shared.listAnswer 2 (Shared.listOutput .default) s := by
  have hrange : listRange [47] [47] = .ok ([2, 47, 0], [2, 48]) := by decide
  have hrun : (runSteps (RetrySys.step .default
      (fun _ => Shared.RecordCollector.faulty Shared.listProcessor .default)
      (indexRange ([2, 47, 0], [2, 48])))
      (.init (Shared.newRecordCollector 2 (Shared.newListCollector 0 false)))
      retriedListRun).any (fun s =>
        decide (Shared.listAnswer 2 (fun c => (Shared.listOutput .default c).2) s
          = some (.ok (3, [⟨[47, 97], 2, 2, 0, [1]⟩])))) = true := by
    decide +kernel
  obtain ⟨s, hs, hanswer⟩ := exists_of_any_decide hrun
  obtain ⟨t, ht, hstore, heq⟩ :=
    ((retries_leave_no_trace .default).1 [47] [47] _ hrange 2).1 0 false retriedListRun s hs
  exact ⟨s, t, hrange, hs, ht, hanswer, hstore, heq⟩

end KubeFdb
