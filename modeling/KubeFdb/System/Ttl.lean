import KubeFdb.Driver.Ttl
import KubeFdb.Properties.Scan
import KubeFdb.System.WriteCalls

/-!
# 期限切れの削除

`ttl` の loop と `handleTTLEvents` を、client の書き込みと並べて走らせる。loop は event を受け取り、
map を読み、map に書き、queue に入れる。handler は鍵を取り、map を読み、期限を調べ、`Delete` を呼び、
lock を取って entry を片付ける。どの手のあいだにも、ほかの手が挟まる。

* `lease_kept_on_renewal` — 更新された lease は失われない。ただし handler は、`Delete` が古い revision
  に当たって何も消さなかったときも、新しい entry を map から消してしまう
* `ttl_deletes_expired` — handler が消すのは期限の切れた record だけである。ただし `Lease` が
  `maxLease` を超えると期間が溢れ、すぐに消える

`ttlEvents` の event は、commit された record の event である。順序と重複には何も仮定しない。
queue は、加えられた鍵を、その時刻より後のいつか一度ずつ渡す。`workqueue` は同じ鍵をまとめるが、
渡す回数が減るだけである。
-/

namespace KubeFdb

open Tuple

/-- `ttl` の loop の位置。 -/
inductive TtlPc where
  | idle
  /-- `result` から event を受け取った。 -/
  | received (kv : KeyValue)
  /-- `loadTTLEventKV` が返った。 -/
  | loaded (kv : KeyValue) (eventKV : Option TtlEventKV)
  /-- `storeTTLEventKV` が返った。 -/
  | stored (key : Key) (expires : Int)
deriving DecidableEq

/-- `handleTTLEvents` の位置。 -/
inductive HandlerPc where
  | idle
  /-- `queue.Get` が返った。 -/
  | got (key : Key)
  /-- `loadTTLEventKV` が返った。 -/
  | loaded (eventKV : TtlEventKV)
  /-- `deleteTTLEvent` の `Delete` の途中。 -/
  | deleting (preEventKV : TtlEventKV) (call : WriteCall)
  /-- `Delete` が返った。 -/
  | returned (preEventKV : TtlEventKV) (failed : Bool)
  | panicked
deriving DecidableEq

/-- `processed`、`remembered`、`deleted` は ghost である。 -/
structure Ttl where
  store : Store
  now : Int
  entries : TtlStore
  /-- 鍵と、渡してよくなる時刻。 -/
  queue : List (Key × Int)
  loop : TtlPc
  handler : HandlerPc
  /-- loop が処理した event の鍵と revision。 -/
  processed : List (Key × Int)
  /-- `storeTTLEventKV` を呼んだ時刻と、その event。 -/
  remembered : List (Int × KeyValue)
  /-- handler の、error なしで返った `Delete` の鍵と revision。 -/
  deleted : List (Key × Int)
deriving DecidableEq

def Ttl.init : Ttl := ⟨.init, 0, .empty, [], .idle, .idle, [], [], []⟩

inductive TtlLabel where
  /-- client の書き込みと、ほかの directory の commit。 -/
  | store (a : StoreLabel)
  /-- 時間が進む。 -/
  | advance (d : Nat)
  /-- `i` 番目に commit された record の event を受け取る。 -/
  | receive (i : Nat)
  | loopLoad
  | loopStore
  | addAfter
  | get (i : Nat)
  | load
  /-- 期限を調べる。`uuid` は `Delete` の最初の `lastWriteUUID` である。 -/
  | check (uuid : UUID)
  | attempt (uuid : UUID) (v : Nat) (fate : Fate)
  /-- `transact` が諦めた。 -/
  | giveUp
  /-- lock を取って entry を片付ける。 -/
  | finish
deriving DecidableEq

/-- `ttl` の loop の手。 -/
def Ttl.loopStep (cfg : Config) (s : Ttl) : TtlLabel → Option Ttl
  | .receive i =>
    match s.loop, s.store.committed[i]? with
    | .idle, some r =>
      let event := revRecordToEvent cfg r
      if 0 < event.kv.lease then
        if event.delete then some s else some { s with loop := .received event.kv }
      else none
    | _, _ => none
  | .loopLoad =>
    match s.loop with
    | .received kv => some { s with loop := .loaded kv (loadTTLEventKV s.entries kv.key) }
    | _ => none
  | .loopStore =>
    match s.loop with
    | .loaded kv eventKV =>
      let processed := s.processed ++ [(kv.key, kv.modRevision)]
      if needsStore kv eventKV then
        let (entries, expires) := storeTTLEventKV s.now s.entries kv
        some { s with
          entries := entries, loop := .stored kv.key expires, processed := processed
          remembered := s.remembered ++ [(s.now, kv)] }
      else some { s with loop := .idle, processed := processed }
    | _ => none
  | .addAfter =>
    match s.loop with
    | .stored key expires =>
      some { s with loop := .idle, queue := s.queue ++ [(key, s.now + expires)] }
    | _ => none
  | _ => none

/-- `Delete` の試行の後の状態。`t` は試行が commit したときの store、`res` は transaction の答えである。 -/
def Ttl.attempted (s : Ttl) (preEventKV : TtlEventKV) (call : WriteCall) (uuid : UUID) (fate : Fate)
    (t : Store) (res : Except Err TxOut) : Ttl :=
  let call := call.after uuid fate res
  let s := { s with store := if fate = Fate.notCommitted then s.store else t }
  if call.status = .running then { s with handler := .deleting preEventKV call }
  else
    { s with
      handler := .returned preEventKV (!res.isOk)
      deleted :=
        if res.isOk then s.deleted ++ [(preEventKV.key, preEventKV.modRevision)] else s.deleted }

/-- `handleTTLEvents` の手。 -/
def Ttl.handlerStep (cfg : Config) (s : Ttl) : TtlLabel → Option Ttl
  | .get i =>
    match s.handler, s.queue[i]? with
    | .idle, some (key, readyAt) =>
      if readyAt ≤ s.now then some { s with handler := .got key, queue := s.queue.eraseIdx i }
      else none
    | _, _ => none
  | .load =>
    match s.handler with
    | .got key =>
      match loadTTLEventKV s.entries key with
      | none => some { s with handler := .idle }
      | some eventKV => some { s with handler := .loaded eventKV }
    | _ => none
  | .check uuid =>
    match s.handler with
    | .loaded eventKV =>
      if s.now < eventKV.expiredAt then
        some { s with handler := .idle, queue := s.queue ++ [(eventKV.key, eventKV.expiredAt)] }
      else
        some { s with
          handler := .deleting eventKV
            ⟨.delete eventKV.key eventKV.modRevision, uuid, .running, []⟩ }
    | _ => none
  | .attempt uuid v fate =>
    match s.handler with
    | .deleting preEventKV call =>
      (s.store.step cfg (.write call.op call.lastWriteUUID uuid v)).map
        (fun t => s.attempted preEventKV call uuid fate t
          (call.op.tx cfg call.lastWriteUUID uuid v s.store.db))
    | _ => none
  | .giveUp =>
    match s.handler with
    | .deleting preEventKV _ => some { s with handler := .returned preEventKV true }
    | _ => none
  | .finish =>
    match s.handler with
    | .returned preEventKV failed =>
      match finishTTLEvent s.now preEventKV failed s.entries with
      | none => some { s with handler := .panicked }
      | some (entries, item) =>
        some { s with
          handler := .idle, entries := entries
          queue := s.queue ++ (item.map (fun (key, expires) => (key, s.now + expires))).toList }
    | _ => none
  | _ => none

/-- 一手。 -/
def Ttl.step (cfg : Config) (s : Ttl) (a : TtlLabel) : Option Ttl :=
  match a with
  | .store a =>
    if a.isClient then (s.store.step cfg a).map (fun t => { s with store := t }) else none
  | .advance d => some { s with now := s.now + d }
  | .receive _ | .loopLoad | .loopStore | .addAfter => s.loopStep cfg a
  | .get _ | .load | .check _ | .attempt _ _ _ | .giveUp | .finish => s.handlerStep cfg a

/-! ## 手の形 -/

/-- loop の手がすることのすべて。 -/
inductive Ttl.LoopEffect (cfg : Config) (s : Ttl) : TtlLabel → Ttl → Prop
  /-- 削除の event を読み飛ばした。 -/
  | skipped (i : Nat) : LoopEffect cfg s (.receive i) s
  | received (i : Nat) (r : RevRecord) (hr : r ∈ s.store.committed) (hlive : r.live = true)
      (hl : 0 < r.record.lease) :
    LoopEffect cfg s (.receive i) { s with loop := .received (kvOf cfg r) }
  | loaded (kv : KeyValue) (hpc : s.loop = .received kv) :
    LoopEffect cfg s .loopLoad { s with loop := .loaded kv (s.entries.get? kv.key) }
  | stored (kv : KeyValue) (eventKV : Option TtlEventKV) (hpc : s.loop = .loaded kv eventKV)
      (hn : ∀ e, eventKV = some e → e.modRevision < kv.modRevision) :
    LoopEffect cfg s .loopStore { s with
      entries := s.entries.set kv.key ⟨kv.key, kv.modRevision, s.now + leaseDuration kv.lease⟩
      loop := .stored kv.key (leaseDuration kv.lease)
      processed := s.processed ++ [(kv.key, kv.modRevision)]
      remembered := s.remembered ++ [(s.now, kv)] }
  /-- map に同じか新しい revision があった。 -/
  | kept (kv : KeyValue) (e : TtlEventKV) (hpc : s.loop = .loaded kv (some e))
      (hn : kv.modRevision ≤ e.modRevision) :
    LoopEffect cfg s .loopStore { s with
      loop := .idle, processed := s.processed ++ [(kv.key, kv.modRevision)] }
  | added (queue : List (Key × Int)) :
    LoopEffect cfg s .addAfter { s with loop := .idle, queue := queue }

/-- handler の手がすることのすべて。 -/
inductive Ttl.HandlerEffect (cfg : Config) (s : Ttl) : TtlLabel → Ttl → Prop
  | got (i : Nat) (key : Key) (queue : List (Key × Int)) :
    HandlerEffect cfg s (.get i) { s with handler := .got key, queue := queue }
  | missing : HandlerEffect cfg s .load { s with handler := .idle }
  | loaded (key : Key) (e : TtlEventKV) (he : s.entries.get? key = some e) :
    HandlerEffect cfg s .load { s with handler := .loaded e }
  | waiting (uuid : UUID) (queue : List (Key × Int)) :
    HandlerEffect cfg s (.check uuid) { s with handler := .idle, queue := queue }
  | expired (e : TtlEventKV) (uuid : UUID) (hpc : s.handler = .loaded e)
      (hx : e.expiredAt ≤ s.now) :
    HandlerEffect cfg s (.check uuid) { s with
      handler := .deleting e ⟨.delete e.key e.modRevision, uuid, .running, []⟩ }
  | attempted (e : TtlEventKV) (call : WriteCall) (uuid : UUID) (v : Nat) (fate : Fate) (t : Store)
      (hpc : s.handler = .deleting e call)
      (ht : s.store.step cfg (.write call.op call.lastWriteUUID uuid v) = some t) :
    HandlerEffect cfg s (.attempt uuid v fate) (s.attempted e call uuid fate t
      (call.op.tx cfg call.lastWriteUUID uuid v s.store.db))
  | gaveUp (e : TtlEventKV) (call : WriteCall) (hpc : s.handler = .deleting e call) :
    HandlerEffect cfg s .giveUp { s with handler := .returned e true }
  | panicked (e : TtlEventKV) (failed : Bool) (hpc : s.handler = .returned e failed)
      (hn : s.entries.get? e.key = none) :
    HandlerEffect cfg s .finish { s with handler := .panicked }
  | requeued (queue : List (Key × Int)) :
    HandlerEffect cfg s .finish { s with handler := .idle, queue := queue }
  | removed (e cur : TtlEventKV) (hpc : s.handler = .returned e false)
      (hcur : s.entries.get? e.key = some cur) (hx : e.expiredAt ≤ s.now) :
    HandlerEffect cfg s .finish { s with
      handler := .idle
      entries := s.entries.filter (fun key => decide (key ≠ cur.key)) }

variable {cfg : Config} {s s' : Ttl} {a : TtlLabel}

theorem needsStore_iff {kv : KeyValue} {eventKV : Option TtlEventKV} :
    needsStore kv eventKV = true ↔ ∀ e, eventKV = some e → e.modRevision < kv.modRevision := by
  cases eventKV <;> simp [needsStore]

theorem Ttl.loopStep_effect (h : s.loopStep cfg a = some s') : s.LoopEffect cfg a s' := by
  unfold Ttl.loopStep at h
  split at h
  · -- receive
    next i =>
    split at h
    · next r hl hr =>
      dsimp only at h
      split at h
      · next hlease =>
        split at h
        · cases h
          exact .skipped i
        · next hd =>
          cases h
          exact .received i r (List.mem_of_getElem? hr)
            (by simpa [RevRecord.live, revRecordToEvent] using hd) hlease
      · cases h
    · cases h
  · split at h
    · next kv hpc =>
      cases h
      exact .loaded kv hpc
    · cases h
  · split at h
    · next kv eventKV hpc =>
      dsimp only at h
      split at h
      · next hn =>
        cases h
        exact .stored kv eventKV hpc (needsStore_iff.mp hn)
      · next hn =>
        cases h
        cases eventKV with
        | none => exact absurd rfl hn
        | some e => exact .kept kv e hpc (by simpa [needsStore] using hn)
    · cases h
  · split at h
    · cases h
      exact .added _
    · cases h
  · cases h

/-- 片付けの手。期限を調べ直すのは読んだ entry なので、`Delete` が error なしに返れば、
いまの entry が何であっても消える。 -/
theorem Ttl.finish_effect {e : TtlEventKV} {failed : Bool} (hpc : s.handler = .returned e failed)
    (h : (match finishTTLEvent s.now e failed s.entries with
      | none => some { s with handler := HandlerPc.panicked }
      | some (entries, item) =>
        some { s with
          handler := .idle, entries := entries
          queue := s.queue ++ (item.map (fun (key, expires) => (key, s.now + expires))).toList })
      = some s') : s.HandlerEffect cfg .finish s' := by
  unfold finishTTLEvent at h
  cases hcur : s.entries.get? e.key with
  | none =>
    simp only [hcur] at h
    cases h
    exact .panicked e failed hpc hcur
  | some cur =>
    simp only [hcur] at h
    by_cases hx : 0 < e.expiredAt - s.now
    · simp only [if_pos hx] at h
      cases h
      exact .requeued _
    · simp only [if_neg hx] at h
      cases failed with
      | true =>
        cases h
        exact .requeued _
      | false =>
        cases h
        simpa using HandlerEffect.removed e cur hpc hcur (by omega)

theorem Ttl.handlerStep_effect (h : s.handlerStep cfg a = some s') : s.HandlerEffect cfg a s' := by
  unfold Ttl.handlerStep at h
  split at h
  · -- get
    split at h
    · split at h
      · cases h
        exact .got _ _ _
      · cases h
    · cases h
  · -- load
    split at h
    · next key hpc =>
      split at h
      · cases h
        exact .missing
      · next e he =>
        cases h
        exact .loaded key e he
    · cases h
  · -- check
    split at h
    · next e hpc =>
      split at h
      · cases h
        exact .waiting _ _
      · next hx =>
        cases h
        exact .expired e _ hpc (not_lt.mp hx)
    · cases h
  · -- attempt
    split at h
    · next e call hpc =>
      obtain ⟨t, ht, rfl⟩ := Option.map_eq_some_iff.mp h
      exact .attempted e call _ _ _ t hpc ht
    · cases h
  · -- giveUp
    split at h
    · next e call hpc =>
      cases h
      exact .gaveUp e call hpc
    · cases h
  · -- finish
    split at h
    · next e failed hpc => exact Ttl.finish_effect hpc h
    · cases h
  · cases h

/-! ## 不変条件 -/

/-- loop が扱っている event。 -/
def TtlPc.event : TtlPc → Option KeyValue
  | .received kv => some kv
  | .loaded kv _ => some kv
  | _ => none

/-- handler が持っている entry。 -/
def HandlerPc.entry : HandlerPc → Option TtlEventKV
  | .loaded e => some e
  | .deleting e _ => some e
  | .returned e _ => some e
  | _ => none

/-- lease を持つ生きた record。 -/
structure Leased (recs : List RevRecord) (r : RevRecord) : Prop where
  mem : r ∈ recs
  live : r.live = true
  lease : 0 < r.record.lease

/-- entry `e` が、時刻 `at_` に覚えた record `r` の event のものであること。 -/
structure RememberedAt (cfg : Config) (recs : List RevRecord) (log : List (Int × KeyValue))
    (e : TtlEventKV) (at_ : Int) (r : RevRecord) : Prop where
  leased : Leased recs r
  entry : e = ⟨r.key, versionstampToInt64 r.rev, at_ + leaseDuration r.record.lease⟩
  log : (at_, kvOf cfg r) ∈ log

def Ttl.Remembers (cfg : Config) (s : Ttl) (e : TtlEventKV) : Prop :=
  ∃ at_ r, RememberedAt cfg s.store.committed s.remembered e at_ r

structure Ttl.Inv (cfg : Config) (s : Ttl) : Prop where
  store : s.store.Inv cfg s.store.committed
  entries : ∀ key e, s.entries.get? key = some e → e.key = key ∧ s.Remembers cfg e
  event : ∀ kv, s.loop.event = some kv → ∃ r, Leased s.store.committed r ∧ kv = kvOf cfg r
  handler : ∀ e, s.handler.entry = some e → s.Remembers cfg e
  deleting : ∀ e call, s.handler = .deleting e call →
    call.op = .delete e.key e.modRevision ∧ e.expiredAt ≤ s.now

theorem Ttl.init_inv (cfg : Config) : Ttl.init.Inv cfg where
  store := Store.init_inv cfg
  entries := fun _ _ he => by simp [Ttl.init] at he
  event := fun _ he => by simp [Ttl.init, TtlPc.event] at he
  handler := fun _ he => by simp [Ttl.init, HandlerPc.entry] at he
  deleting := fun _ _ he => by simp [Ttl.init] at he

/-- client の手は、commit された record をすべて残す。 -/
theorem Store.client_step {t t' : Store} {a : StoreLabel} (h : t.Inv cfg t.committed)
    (ha : a.isClient = true) (ht : t.step cfg a = some t') :
    t'.Inv cfg t'.committed ∧ t.committed <+: t'.committed := by
  obtain ⟨recs, he, h'⟩ := Store.inv_step h ht
  rw [he.committed_eq ha] at h'
  exact ⟨h', he.committed_isPrefix⟩

/-- 試行の後の store。commit しなかった試行は何も変えない。 -/
theorem Store.attempt_step {t t' : Store} {op : WriteOp} {lastWriteUUID uuid : UUID} {v : Nat}
    (h : t.Inv cfg t.committed) (ht : t.step cfg (.write op lastWriteUUID uuid v) = some t')
    (fate : Fate) :
    Store.Inv cfg (if fate = .notCommitted then t else t')
        (if fate = .notCommitted then t else t').committed ∧
      t.committed <+: (if fate = .notCommitted then t else t').committed := by
  split
  · exact ⟨h, List.prefix_rfl⟩
  · exact Store.client_step h rfl ht

theorem Leased.mono {recs recs' : List RevRecord} {r : RevRecord} (h : Leased recs r)
    (hp : recs <+: recs') : Leased recs' r := ⟨hp.subset h.mem, h.live, h.lease⟩

theorem Ttl.Remembers.mono {e : TtlEventKV} (h : s.Remembers cfg e)
    (hp : s.store.committed <+: s'.store.committed) (hr : s.remembered <+: s'.remembered) :
    s'.Remembers cfg e := by
  obtain ⟨at_, r, hl, he, hm⟩ := h
  exact ⟨at_, r, hl.mono hp, he, hr.subset hm⟩

/-- store が伸びても、不変条件は保たれる。 -/
theorem Ttl.Inv.grow (h : s.Inv cfg) {t : Store} (ht : t.Inv cfg t.committed)
    (hp : s.store.committed <+: t.committed) : Ttl.Inv cfg { s with store := t } where
  store := ht
  entries := fun key e he =>
    ⟨(h.entries key e he).1, (h.entries key e he).2.mono hp List.prefix_rfl⟩
  event := fun kv he => by
    obtain ⟨r, hl, hkv⟩ := h.event kv he
    exact ⟨r, hl.mono hp, hkv⟩
  handler := fun e he => (h.handler e he).mono hp List.prefix_rfl
  deleting := h.deleting

theorem Ttl.Inv.loop (h : s.Inv cfg) (he : s.LoopEffect cfg a s') : s'.Inv cfg := by
  cases he with
  | skipped i => exact h
  | received i r hr hlive hl =>
    refine ⟨h.store, h.entries, ?_, h.handler, h.deleting⟩
    rintro kv ⟨⟩
    exact ⟨r, ⟨hr, hlive, hl⟩, rfl⟩
  | loaded kv hpc =>
    refine ⟨h.store, h.entries, ?_, h.handler, h.deleting⟩
    rintro kv' ⟨⟩
    exact h.event kv (by rw [hpc]; rfl)
  | stored kv eventKV hpc hn =>
    obtain ⟨r, hl, rfl⟩ := h.event kv (by rw [hpc]; rfl)
    refine ⟨h.store, ?_, nofun, ?_, h.deleting⟩
    · intro key e hget
      by_cases hk : key = (kvOf cfg r).key
      · -- 覚えたばかりの entry
        subst hk
        rw [OrdMap.get?_set_self] at hget
        cases hget
        exact ⟨rfl, s.now, r, hl, rfl, List.mem_append_right _ List.mem_cons_self⟩
      · rw [OrdMap.get?_set_of_ne hk] at hget
        obtain ⟨hkey, hrem⟩ := h.entries key e hget
        exact ⟨hkey, hrem.mono List.prefix_rfl (List.prefix_append _ _)⟩
    · exact fun e he => (h.handler e he).mono List.prefix_rfl (List.prefix_append _ _)
  | kept kv e hpc hn => exact ⟨h.store, h.entries, nofun, h.handler, h.deleting⟩
  | added queue => exact ⟨h.store, h.entries, nofun, h.handler, h.deleting⟩

/-- 試行は entry を変えず、store を試行の前か後のものにする。 -/
theorem Ttl.attempted_cases (s : Ttl) (e : TtlEventKV) (call : WriteCall) (uuid : UUID)
    (fate : Fate) (t : Store) (res : Except Err TxOut) :
    ∃ handler deleted, s.attempted e call uuid fate t res =
        { s with
          store := if fate = Fate.notCommitted then s.store else t
          handler := handler, deleted := deleted } ∧
      ((handler = .deleting e (call.after uuid fate res) ∧ deleted = s.deleted) ∨
        (handler = .returned e true ∧ deleted = s.deleted) ∨
        (handler = .returned e false ∧ deleted = s.deleted ++ [(e.key, e.modRevision)])) := by
  by_cases hrun : (call.after uuid fate res).status = .running
  · exact ⟨_, _, if_pos hrun, Or.inl ⟨rfl, rfl⟩⟩
  · cases res with
    | ok out => exact ⟨_, _, if_neg hrun, Or.inr (Or.inr ⟨rfl, rfl⟩)⟩
    | error err => exact ⟨_, _, rfl, Or.inr (Or.inl ⟨rfl, rfl⟩)⟩

/-- entry を持たない位置に移る手。 -/
theorem Ttl.Inv.release (h : s.Inv cfg) {handler : HandlerPc} (queue : List (Key × Int))
    (hn : handler.entry = none) : Ttl.Inv cfg { s with handler := handler, queue := queue } where
  store := h.store
  entries := h.entries
  event := h.event
  handler := fun e he => by cases hn.symm.trans he
  deleting := by
    rintro e call rfl
    cases hn

theorem Ttl.Inv.handle (h : s.Inv cfg) (he : s.HandlerEffect cfg a s') : s'.Inv cfg := by
  cases he with
  | got i key queue => exact h.release queue rfl
  | missing => exact h.release s.queue rfl
  | loaded key e he =>
    refine ⟨h.store, h.entries, h.event, ?_, nofun⟩
    rintro e' ⟨⟩
    exact (h.entries key e he).2
  | waiting uuid queue => exact h.release queue rfl
  | expired e uuid hpc hx =>
    refine ⟨h.store, h.entries, h.event, ?_, ?_⟩
    · rintro e' ⟨⟩
      exact h.handler e (by rw [hpc]; rfl)
    · rintro e' call ⟨⟩
      exact ⟨rfl, hx⟩
  | attempted e call uuid v fate t hpc ht =>
    obtain ⟨ht', hp⟩ := Store.attempt_step h.store ht fate
    have hgrow := h.grow ht' hp
    have hentry : s.handler.entry = some e := by rw [hpc]; rfl
    obtain ⟨handler, deleted, heq, hcases⟩ := s.attempted_cases e call uuid fate t
      (call.op.tx cfg call.lastWriteUUID uuid v s.store.db)
    rw [heq]
    refine ⟨hgrow.store, hgrow.entries, hgrow.event, ?_, ?_⟩
    · intro e' he'
      have : e' = e := by
        obtain ⟨rfl, -⟩ | ⟨rfl, -⟩ | ⟨rfl, -⟩ := hcases <;> exact (Option.some.inj he').symm
      exact this ▸ hgrow.handler e hentry
    · rintro e' call' rfl
      obtain ⟨hd, -⟩ | ⟨hd, -⟩ | ⟨hd, -⟩ := hcases <;> cases hd
      rw [WriteCall.after_op]
      exact h.deleting e call hpc
  | gaveUp e call hpc =>
    refine ⟨h.store, h.entries, h.event, ?_, nofun⟩
    rintro e' ⟨⟩
    exact h.handler e (by rw [hpc]; rfl)
  | panicked e failed hpc hn => exact h.release s.queue rfl
  | requeued queue => exact h.release queue rfl
  | removed e cur hpc hcur hx =>
    refine ⟨h.store, ?_, h.event, nofun, nofun⟩
    intro key e' hget
    rw [OrdMap.get?_filter] at hget
    split at hget
    · exact h.entries key e' hget
    · cases hget

theorem Ttl.inv_step (h : s.Inv cfg) (hs : s.step cfg a = some s') : s'.Inv cfg := by
  unfold Ttl.step at hs
  split at hs
  · next a =>
    split at hs
    · next ha =>
      obtain ⟨t, ht, rfl⟩ := Option.map_eq_some_iff.mp hs
      obtain ⟨ht', hp⟩ := Store.client_step h.store ha ht
      exact h.grow ht' hp
    · cases hs
  · next d =>
    cases hs
    refine ⟨h.store, h.entries, h.event, h.handler, fun e call hpc => ?_⟩
    obtain ⟨hop, hx⟩ := h.deleting e call hpc
    exact ⟨hop, hx.trans (Int.le_add_of_nonneg_right (Int.natCast_nonneg d))⟩
  all_goals first | exact h.loop (Ttl.loopStep_effect hs) | exact h.handle (Ttl.handlerStep_effect hs)

/-! ## 更新された lease -/

/-- 鍵の最新の record が lease を持ち、その event を loop が処理していれば、map にその revision の entry が
あること。handler の、その revision の `Delete` が error なしで返っていれば、なくてよい。 -/
def Ttl.KeepsLeases (s : Ttl) : Prop :=
  ∀ r, newest RevRecord.key s.store.committed r.key = some r → r.live = true →
    0 < r.record.lease → (r.key, versionstampToInt64 r.rev) ∈ s.processed →
    (∃ e, s.entries.get? r.key = some e ∧ e.modRevision = versionstampToInt64 r.rev) ∨
      (r.key, versionstampToInt64 r.rev) ∈ s.deleted

/-- 手 `a` で handler が map から消す鍵の、読んであった entry。 -/
def HandlerPc.removing : HandlerPc → TtlLabel → Option TtlEventKV
  | .returned e false, .finish => some e
  | _, _ => none

/-- handler が entry を消す手の前の条件。map の entry は、`Delete` に渡した revision のままである。 -/
def RemovesLoaded (s : Ttl) (a : TtlLabel) : Prop :=
  ∀ e ∈ s.handler.removing a, ∀ cur ∈ s.entries.get? e.key, cur.modRevision = e.modRevision

instance (s : Ttl) (a : TtlLabel) : Decidable (RemovesLoaded s a) :=
  inferInstanceAs (Decidable (∀ e ∈ s.handler.removing a, ∀ cur ∈ s.entries.get? e.key,
    cur.modRevision = e.modRevision))

/-- 鍵の revision `rev` かそれより新しいものが、map にあるか、`Delete` されたこと。 -/
def Covers (entries : TtlStore) (deleted : List (Key × Int)) (key : Key) (rev : Int) : Prop :=
  (∃ e, entries.get? key = some e ∧ rev ≤ e.modRevision) ∨
    ∃ rev', rev ≤ rev' ∧ (key, rev') ∈ deleted

structure Ttl.Covered (cfg : Config) (s : Ttl) : Prop where
  processed : ∀ p ∈ s.processed, Covers s.entries s.deleted p.1 p.2
  /-- map の entry は、loop が読んだときのままか、もう消えている。 -/
  unchanged : ∀ kv eventKV, s.loop = .loaded kv eventKV →
    ∀ e, s.entries.get? kv.key = some e → eventKV = some e
  /-- loop が読んだ entry がもう消えていれば、その revision は `Delete` された。 -/
  loaded : ∀ kv e, s.loop = .loaded kv (some e) → Covers s.entries s.deleted kv.key e.modRevision
  returned : ∀ e, s.handler = .returned e false → (e.key, e.modRevision) ∈ s.deleted
  deleted : ∀ p ∈ s.deleted, ∃ e, s.Remembers cfg e ∧ (e.key, e.modRevision) = p

theorem Ttl.init_covered (cfg : Config) : Ttl.init.Covered cfg :=
  ⟨nofun, nofun, nofun, nofun, nofun⟩

theorem Covers.mono {entries : TtlStore} {deleted deleted' : List (Key × Int)} {key : Key} {rev : Int}
    (h : Covers entries deleted key rev) (hp : deleted <+: deleted') :
    Covers entries deleted' key rev :=
  h.imp_right fun ⟨rev', hle, hm⟩ => ⟨rev', hle, hp.subset hm⟩

/-- entry が新しい revision に置き換わっても、覆う範囲は減らない。 -/
theorem Covers.set {entries : TtlStore} {deleted : List (Key × Int)} {key : Key} {rev : Int}
    (h : Covers entries deleted key rev) {e : TtlEventKV}
    (hle : ∀ cur, entries.get? e.key = some cur → cur.modRevision ≤ e.modRevision) :
    Covers (entries.set e.key e) deleted key rev := by
  obtain ⟨cur, hcur, hrev⟩ | hd := h
  · by_cases hk : key = e.key
    · subst hk
      exact Or.inl ⟨e, OrdMap.get?_set_self, hrev.trans (hle cur hcur)⟩
    · exact Or.inl ⟨cur, by rw [OrdMap.get?_set_of_ne hk]; exact hcur, hrev⟩
  · exact Or.inr hd

/-- `Delete` された revision の entry は、消えても覆われている。 -/
theorem Covers.remove {entries : TtlStore} {deleted : List (Key × Int)} {key key' : Key} {rev : Int}
    (h : Covers entries deleted key rev)
    (hd : ∀ cur, entries.get? key' = some cur → (key', cur.modRevision) ∈ deleted) :
    Covers (entries.filter (fun k => decide (k ≠ key'))) deleted key rev := by
  obtain ⟨cur, hcur, hrev⟩ | hd' := h
  · by_cases hk : key = key'
    · subst hk
      exact Or.inr ⟨cur.modRevision, hrev, hd cur hcur⟩
    · exact Or.inl ⟨cur, by simpa [hk] using hcur, hrev⟩
  · exact Or.inr hd'

theorem Ttl.Covered.loop (h : s.Covered cfg) (he : s.LoopEffect cfg a s') : s'.Covered cfg := by
  cases he with
  | skipped i => exact h
  | received i r hr hlive hl => exact ⟨h.processed, nofun, nofun, h.returned, h.deleted⟩
  | loaded kv hpc =>
    refine ⟨h.processed, ?_, ?_, h.returned, h.deleted⟩
    · rintro kv' eventKV ⟨⟩ e hget
      exact hget
    · intro kv' e heq
      obtain ⟨rfl, hget⟩ := TtlPc.loaded.inj heq
      exact Or.inl ⟨e, hget, le_rfl⟩
  | stored kv eventKV hpc hn =>
    refine ⟨?_, nofun, nofun, h.returned, ?_⟩
    · intro p hp
      rcases List.mem_append.mp hp with hp | hp
      · -- 置き換えた entry は loop が読んだもので、revision は小さい
        exact (h.processed p hp).set (e := ⟨kv.key, kv.modRevision, _⟩)
          fun cur hcur => (hn cur (h.unchanged kv eventKV hpc cur hcur)).le
      · cases List.mem_singleton.mp hp
        exact Or.inl ⟨_, OrdMap.get?_set_self, le_rfl⟩
    · intro p hp
      obtain ⟨e, hrem, he⟩ := h.deleted p hp
      exact ⟨e, hrem.mono List.prefix_rfl (List.prefix_append _ _), he⟩
  | kept kv e hpc hn =>
    refine ⟨?_, nofun, nofun, h.returned, h.deleted⟩
    intro p hp
    rcases List.mem_append.mp hp with hp | hp
    · exact h.processed p hp
    · cases List.mem_singleton.mp hp
      -- 読んだ entry の revision が覆われているので、それ以下も覆われている
      obtain ⟨cur, hcur, hle⟩ | ⟨rev, hle, hd⟩ := h.loaded kv e hpc
      · exact Or.inl ⟨cur, hcur, hn.trans hle⟩
      · exact Or.inr ⟨rev, hn.trans hle, hd⟩
  | added queue => exact ⟨h.processed, nofun, nofun, h.returned, h.deleted⟩

/-- `Delete` が返ったのではない位置に移る手。 -/
theorem Ttl.Covered.turn (h : s.Covered cfg) {handler : HandlerPc} (queue : List (Key × Int))
    (hn : ∀ e, handler ≠ .returned e false) :
    Ttl.Covered cfg { s with handler := handler, queue := queue } where
  processed := h.processed
  unchanged := h.unchanged
  loaded := h.loaded
  returned := fun e he => absurd he (hn e)
  deleted := h.deleted

theorem Ttl.Covered.handle (hi : s.Inv cfg) (h : s.Covered cfg) (hok : RemovesLoaded s a)
    (he : s.HandlerEffect cfg a s') : s'.Covered cfg := by
  cases he with
  | got i key queue => exact h.turn queue (by simp)
  | missing => exact h.turn s.queue (by simp)
  | loaded key e he => exact h.turn s.queue (by simp)
  | waiting uuid queue => exact h.turn queue (by simp)
  | expired e uuid hpc hx => exact h.turn s.queue (by simp)
  | attempted e call uuid v fate t hpc ht =>
    obtain ⟨-, hp⟩ := Store.attempt_step hi.store ht fate
    obtain ⟨handler, deleted, heq, hcases⟩ := s.attempted_cases e call uuid fate t
      (call.op.tx cfg call.lastWriteUUID uuid v s.store.db)
    rw [heq]
    have hd : s.deleted <+: deleted := by
      obtain ⟨-, rfl⟩ | ⟨-, rfl⟩ | ⟨-, rfl⟩ := hcases <;> simp
    refine ⟨fun p hp => (h.processed p hp).mono hd, h.unchanged,
      fun kv c hl => (h.loaded kv c hl).mono hd, ?_, ?_⟩
    · rintro e' rfl
      obtain ⟨he, -⟩ | ⟨he, -⟩ | ⟨he, rfl⟩ := hcases <;> cases he
      exact List.mem_append_right _ List.mem_cons_self
    · intro p hm
      have hcase : p ∈ s.deleted ∨ p = (e.key, e.modRevision) := by
        obtain ⟨-, rfl⟩ | ⟨-, rfl⟩ | ⟨-, rfl⟩ := hcases
        · exact Or.inl hm
        · exact Or.inl hm
        · simpa using hm
      rcases hcase with hm | rfl
      · obtain ⟨c, hrem, hc⟩ := h.deleted p hm
        exact ⟨c, hrem.mono hp List.prefix_rfl, hc⟩
      · exact ⟨e, (hi.handler e (by rw [hpc]; rfl)).mono hp List.prefix_rfl, rfl⟩
  | gaveUp e call hpc => exact h.turn s.queue (by simp)
  | panicked e failed hpc hn => exact h.turn s.queue (by simp)
  | requeued queue => exact h.turn queue (by simp)
  | removed e cur hpc hcur hx =>
    have hrev : cur.modRevision = e.modRevision := hok e (by rw [hpc]; rfl) cur hcur
    have hkey : cur.key = e.key := (hi.entries e.key cur hcur).1
    -- 消える entry の revision は、いま返った `Delete` の revision である
    have hd : ∀ c, s.entries.get? cur.key = some c → (cur.key, c.modRevision) ∈ s.deleted := by
      intro c hc
      rw [hkey, hcur] at hc
      cases hc
      rw [hkey, hrev]
      exact h.returned e hpc
    refine ⟨fun p hp => (h.processed p hp).remove hd, ?_, fun kv c hl => (h.loaded kv c hl).remove hd,
      nofun, h.deleted⟩
    intro kv eventKV hl c hget
    rw [OrdMap.get?_filter] at hget
    split at hget
    · exact h.unchanged kv eventKV hl c hget
    · cases hget

theorem Ttl.covered_step (hi : s.Inv cfg) (h : s.Covered cfg) (hok : RemovesLoaded s a)
    (hs : s.step cfg a = some s') : s'.Covered cfg := by
  unfold Ttl.step at hs
  split at hs
  · split at hs
    · next ha =>
      obtain ⟨t, ht, rfl⟩ := Option.map_eq_some_iff.mp hs
      obtain ⟨-, hp⟩ := Store.client_step hi.store ha ht
      refine ⟨h.processed, h.unchanged, h.loaded, h.returned, fun p hm => ?_⟩
      obtain ⟨e, hrem, he⟩ := h.deleted p hm
      exact ⟨e, hrem.mono hp List.prefix_rfl, he⟩
    · cases hs
  · cases hs
    exact ⟨h.processed, h.unchanged, h.loaded, h.returned, h.deleted⟩
  all_goals
    first | exact h.loop (Ttl.loopStep_effect hs) | exact h.handle hi hok (Ttl.handlerStep_effect hs)

/-- 覚えた entry の revision は、鍵の最新の record の revision を超えない。 -/
theorem Ttl.Remembers.le_newest (hi : s.Inv cfg) {e : TtlEventKV} (h : s.Remembers cfg e)
    {r : RevRecord} (hn : newest RevRecord.key s.store.committed r.key = some r) (hk : e.key = r.key) :
    e.modRevision ≤ versionstampToInt64 r.rev := by
  obtain ⟨at_, r', hl, rfl, -⟩ := h
  have hwf := hi.store.tracks.wf
  obtain ⟨hr, -, hmax⟩ := (newest_eq_some_iff hi.store.tracks.sorted).mp hn
  exact ((hwf r' hl.mem).rev.le_iff (hwf r hr).rev).mp (hmax r' hl.mem hk)

theorem Ttl.Covered.keepsLeases (hi : s.Inv cfg) (h : s.Covered cfg) : s.KeepsLeases := by
  intro r hn hlive hlease hp
  obtain ⟨e, hget, hle⟩ | ⟨rev, hle, hd⟩ := h.processed _ hp
  · obtain ⟨hkey, hrem⟩ := hi.entries r.key e hget
    exact Or.inl ⟨e, hget, le_antisymm (hrem.le_newest hi hn hkey) hle⟩
  · obtain ⟨e, hrem, he⟩ := h.deleted _ hd
    obtain ⟨hkey, rfl⟩ := Prod.mk.inj he
    have heq : versionstampToInt64 r.rev = e.modRevision :=
      le_antisymm hle (hrem.le_newest hi hn hkey)
    exact Or.inr (heq ▸ hd)

/-- **handler が読んだ entry だけを消す run では、更新された lease は失われない。** -/
theorem lease_kept_on_renewal {as : List TtlLabel}
    (hok : StepsMeet (Ttl.step cfg) RemovesLoaded Ttl.init as)
    (hr : runSteps (Ttl.step cfg) Ttl.init as = some s) : s.KeepsLeases := by
  have h : s.Inv cfg ∧ s.Covered cfg :=
    run_invariant_of RemovesLoaded (P := fun s => s.Inv cfg ∧ s.Covered cfg)
      (fun s a s' h ha hs => ⟨Ttl.inv_step h.1 hs, Ttl.covered_step h.1 h.2 ha hs⟩)
      ⟨Ttl.init_inv cfg, Ttl.init_covered cfg⟩ hok hr
  exact h.2.keepsLeases h.1

/-- 期限が切れて消え、作り直される鍵。 -/
def expiredRun : List TtlLabel :=
  [.store (.write (.create [47, 97] [] 1) 0 1 2), .receive 0, .loopLoad, .loopStore, .addAfter,
    .advance 1000000000, .get 0, .load, .check 10, .attempt 11 3 .committed, .finish,
    .store (.write (.create [47, 97] [] 5) 0 2 4), .receive 2, .loopLoad, .loopStore]

theorem lease_kept_on_renewal_of_expired :
    ∃ s, runSteps (Ttl.step .default) Ttl.init expiredRun = some s ∧
      ([47, 97], 4) ∈ s.processed ∧ s.KeepsLeases := by
  have h : (runSteps (Ttl.step .default) Ttl.init expiredRun).any
      (fun s => decide (([47, 97], 4) ∈ s.processed)) = true := by decide +kernel
  obtain ⟨s, hs, h⟩ := exists_of_any_decide h
  have hok : StepsMeet (Ttl.step .default) RemovesLoaded Ttl.init expiredRun := by decide +kernel
  exact ⟨s, hs, h, lease_kept_on_renewal hok hs⟩

/-- 期限が切れた entry を handler が読んだ後で、client が lease を延ばし、loop がその event を覚える。
`Delete` は古い revision に当たって何も消さずに返り、handler は新しい entry を map から消す。 -/
def renewedRun : List TtlLabel :=
  [.store (.write (.create [47, 97] [] 1) 0 1 2), .receive 0, .loopLoad, .loopStore, .addAfter,
    .advance 1000000000, .get 0, .load, .check 10,
    .store (.write (.update [47, 97] [] 2 100) 0 2 3), .receive 1, .loopLoad, .loopStore, .addAfter,
    .attempt 11 4 .committed, .finish]

/-- **延ばされた lease が失われる。** 鍵は生きているのに、map に entry がなく、その revision の `Delete` も
呼ばれていない。 -/
theorem renewed_lease_lost :
    ∃ s, runSteps (Ttl.step .default) Ttl.init renewedRun = some s ∧ ¬ s.KeepsLeases := by
  have h : (runSteps (Ttl.step .default) Ttl.init renewedRun).any (fun s => decide
      (∃ r ∈ newest RevRecord.key s.store.committed [47, 97],
        r.key = [47, 97] ∧ r.live = true ∧ 0 < r.record.lease ∧
        (r.key, versionstampToInt64 r.rev) ∈ s.processed ∧ s.entries.get? [47, 97] = none ∧
        (r.key, versionstampToInt64 r.rev) ∉ s.deleted)) = true := by decide +kernel
  obtain ⟨s, hs, r, hn, hk, hlive, hlease, hp, hget, hd⟩ := exists_of_any_decide h
  refine ⟨s, hs, fun hkeep => ?_⟩
  obtain ⟨e, he, -⟩ | hm := hkeep r (hk ▸ hn) hlive hlease hp
  · rw [hk, hget] at he
    cases he
  · exact hd hm

/-! ## 期限の切れた record -/

/-- 手 `a` で loop が覚える event。 -/
def TtlPc.storing : TtlPc → TtlLabel → Option KeyValue
  | .loaded kv eventKV, .loopStore => if needsStore kv eventKV then some kv else none
  | _, _ => none

/-- loop が event を覚える手の前の条件。`Lease` は nanosecond にしても int64 に収まる。 -/
def FitsDuration (s : Ttl) (a : TtlLabel) : Prop := ∀ kv ∈ s.loop.storing a, kv.lease ≤ maxLease

instance (s : Ttl) (a : TtlLabel) : Decidable (FitsDuration s a) :=
  inferInstanceAs (Decidable (∀ kv ∈ s.loop.storing a, kv.lease ≤ maxLease))

/-- handler が状態 `s` で書く tombstone `t` が、期限の切れた record `last` を消すこと。 -/
structure Ttl.Expired (cfg : Config) (s : Ttl) (t last : RevRecord) : Prop where
  tombstone : t.record.isDelete = true
  prev : t.record.prevRevision = last.rev
  /-- `last` は鍵の最新の record である。 -/
  newest : newest RevRecord.key s.store.committed t.key = some last
  live : last.live = true
  lease : 0 < last.record.lease
  /-- ちょうどその event を覚えてから、lease の秒数が過ぎている。 -/
  elapsed : ∃ at_, (at_, kvOf cfg last) ∈ s.remembered ∧ at_ + last.record.lease * second ≤ s.now

/-- 覚えた lease がすべて int64 に収まること。 -/
def Ttl.Fits (s : Ttl) : Prop := ∀ p ∈ s.remembered, p.2.lease ≤ maxLease

theorem Ttl.LoopEffect.fits (he : s.LoopEffect cfg a s') (h : s.Fits) (hok : FitsDuration s a) :
    s'.Fits := by
  cases he with
  | stored kv eventKV hpc hn =>
    have hkv : kv.lease ≤ maxLease :=
      hok kv (by rw [hpc, TtlPc.storing, if_pos (needsStore_iff.mpr hn)]; rfl)
    intro p hp
    rcases List.mem_append.mp hp with hp | hp
    · exact h p hp
    · cases List.mem_singleton.mp hp
      exact hkv
  | skipped i => exact h
  | received i r hr hlive hl => exact h
  | loaded kv hpc => exact h
  | kept kv e hpc hn => exact h
  | added queue => exact h

theorem Ttl.HandlerEffect.remembered_eq (he : s.HandlerEffect cfg a s') :
    s'.remembered = s.remembered := by
  cases he with
  | attempted e call uuid v fate t hpc ht =>
    obtain ⟨handler, deleted, heq, -⟩ := s.attempted_cases e call uuid fate t
      (call.op.tx cfg call.lastWriteUUID uuid v s.store.db)
    rw [heq]
  | _ => rfl

theorem Ttl.fits_step (h : s.Fits) (hok : FitsDuration s a) (hs : s.step cfg a = some s') :
    s'.Fits := by
  unfold Ttl.step at hs
  split at hs
  · split at hs
    · obtain ⟨t, ht, rfl⟩ := Option.map_eq_some_iff.mp hs
      exact h
    · cases hs
  · cases hs
    exact h
  all_goals
    first
    | exact (Ttl.loopStep_effect hs).fits h hok
    | exact fun p hp => h p ((Ttl.handlerStep_effect hs).remembered_eq ▸ hp)

/-- 覚えた revision の `Delete` が書く tombstone は、覚えた record そのものを消す。 -/
theorem RememberedAt.written {recs : List RevRecord} {log : List (Int × KeyValue)} {e : TtlEventKV}
    {at_ : Int} {r : RevRecord} {record : Record} {size : Int} (h : RememberedAt cfg recs log e at_ r)
    (hs : SortedBy RevRecord.rev recs) (hw : ∀ x ∈ recs, x.Wf)
    (hd : WriteOp.Writes (.delete e.key e.modRevision) (newest RevRecord.key recs e.key) record size) :
    record.key = e.key ∧ record.isDelete = true ∧ record.prevRevision = r.rev ∧
      newest RevRecord.key recs e.key = some r := by
  generalize hn : newest RevRecord.key recs e.key = last at hd
  cases hd with
  | delete _ _ last hlive hrev =>
    have hmem := (newest_mem hn).1
    have hrev' : versionstampToInt64 last.rev = versionstampToInt64 r.rev := by
      rw [h.entry] at hrev
      -- 覚えた revision は正なので、`Delete` は revision を調べる
      exact hrev.resolve_left (hw r h.leased.mem).rev.pos.ne'
    have : last = r := hs.eq_of_index_eq hmem h.leased.mem
      ((hw last hmem).rev.eq_of_int64_eq (hw r h.leased.mem).rev hrev')
    subst this
    exact ⟨rfl, rfl, rfl, rfl⟩

/-- record を書いた試行は、commit した試行で、`Delete` の書く record を書いた。 -/
theorem Ttl.attempted_wrote {e e' : TtlEventKV} {call : WriteCall} {lastWriteUUID uuid : UUID} {v : Nat}
    {fate : Fate} {t' : Store} {res : Except Err TxOut} {t : RevRecord}
    (h : s.store.Inv cfg s.store.committed)
    (hstep : s.store.step cfg (.write (.delete e.key e.modRevision) lastWriteUUID uuid v) = some t')
    (ht : (s.attempted e' call uuid fate t' res).store.committed = s.store.committed ++ [t]) :
    ∃ record size, WriteOp.Writes (.delete e.key e.modRevision)
        (newest RevRecord.key s.store.committed e.key) record size ∧
      t = (append cfg v uuid record size s.store.db).1 := by
  obtain ⟨handler, deleted, heq, -⟩ := s.attempted_cases e' call uuid fate t' res
  have hne : s.store.committed ≠ s.store.committed ++ [t] := by simp
  rw [heq] at ht
  by_cases hf : fate = Fate.notCommitted
  · simp only [hf, if_true] at ht
    exact absurd ht hne
  · simp only [hf, if_false] at ht
    obtain ⟨recs, he⟩ := Store.step_effect h hstep
    cases he with
    | idle _ _ _ _ _ calls hcalls => exact absurd ht hne
    | wrote _ _ _ _ record size hc htl hw =>
      exact ⟨record, size, hw, (List.append_cancel_left ht |> List.singleton_inj.mp).symm⟩

/-- **覚えた lease が int64 に収まる run では、handler が消すのは期限の切れた record だけである。** -/
theorem ttl_deletes_expired {as : List TtlLabel} {uuid : UUID} {v : Nat} {fate : Fate} {t : RevRecord}
    (hok : StepsMeet (Ttl.step cfg) FitsDuration Ttl.init as)
    (hr : runSteps (Ttl.step cfg) Ttl.init as = some s)
    (hs : s.step cfg (.attempt uuid v fate) = some s')
    (ht : s'.store.committed = s.store.committed ++ [t]) :
    ∃ last, s.Expired cfg t last := by
  obtain ⟨h, hfits⟩ : s.Inv cfg ∧ s.Fits :=
    run_invariant_of FitsDuration (P := fun s => s.Inv cfg ∧ s.Fits)
      (fun s a s' h ha hs => ⟨Ttl.inv_step h.1 hs, Ttl.fits_step h.2 ha hs⟩)
      ⟨Ttl.init_inv cfg, nofun⟩ hok hr
  have he : s.HandlerEffect cfg (.attempt uuid v fate) s' := Ttl.handlerStep_effect hs
  cases he with
  | attempted e call _ _ _ t' hpc hstep =>
    obtain ⟨at_, r, hrem⟩ := h.handler e (by rw [hpc]; rfl)
    obtain ⟨hop, hx⟩ := h.deleting e call hpc
    obtain ⟨record, size, hw, rfl⟩ := Ttl.attempted_wrote h.store (hop ▸ hstep) ht
    obtain ⟨hkey, hdel, hprev, hn⟩ := hrem.written h.store.tracks.sorted h.store.tracks.wf hw
    refine ⟨r, hdel, hprev, ?_, hrem.leased.live, hrem.leased.lease, at_, hrem.log, ?_⟩
    · show newest RevRecord.key s.store.committed record.key = some r
      rw [hkey]
      exact hn
    · -- 期限は溢れずに計算されている
      rw [hrem.entry] at hx
      rw [← leaseDuration_of_le hrem.leased.lease (hfits _ hrem.log)]
      exact hx

theorem ttl_deletes_expired_of_expired :
    ∃ s s' t last, runSteps (Ttl.step .default) Ttl.init (expiredRun.take 9) = some s ∧
      s.step .default (.attempt 11 3 .committed) = some s' ∧
      s'.store.committed = s.store.committed ++ [t] ∧ s.Expired .default t last := by
  have h : (runSteps (Ttl.step .default) Ttl.init (expiredRun.take 9)).any (fun s =>
      (s.step .default (.attempt 11 3 .committed)).any (fun s' => decide
        (∃ t ∈ s'.store.committed, s'.store.committed = s.store.committed ++ [t]))) = true := by
    decide +kernel
  obtain ⟨s, hs, h⟩ := (Option.any_eq_true _ _).mp h
  obtain ⟨s', hs', t, -, ht⟩ := exists_of_any_decide h
  have hok : StepsMeet (Ttl.step .default) FitsDuration Ttl.init (expiredRun.take 9) := by
    decide +kernel
  obtain ⟨last, hlast⟩ := ttl_deletes_expired hok hs hs' ht
  exact ⟨s, s', t, last, hs, hs', ht, hlast⟩

/-- 二百九十二年を超える lease。 -/
def overflowRun : List TtlLabel :=
  [.store (.write (.create [47, 97] [] 9223372037) 0 1 2), .receive 0, .loopLoad, .loopStore,
    .addAfter, .get 0, .load, .check 10]

/-- **期間が溢れた lease はすぐに消される。** -/
theorem overflowing_lease_deleted_at_once :
    ∃ s s' t, runSteps (Ttl.step .default) Ttl.init overflowRun = some s ∧
      s.step .default (.attempt 11 3 .committed) = some s' ∧
      s'.store.committed = s.store.committed ++ [t] ∧ ¬ ∃ last, s.Expired .default t last := by
  have h : (runSteps (Ttl.step .default) Ttl.init overflowRun).any (fun s =>
      (s.step .default (.attempt 11 3 .committed)).any (fun s' => decide
        ((∃ t ∈ s'.store.committed, s'.store.committed = s.store.committed ++ [t]) ∧
          ∀ p ∈ s.remembered, s.now < p.1 + p.2.lease * second))) = true := by
    decide +kernel
  obtain ⟨s, hs, h⟩ := (Option.any_eq_true _ _).mp h
  obtain ⟨s', hs', ⟨t, -, ht⟩, hlate⟩ := exists_of_any_decide h
  refine ⟨s, s', t, hs, hs', ht, ?_⟩
  rintro ⟨last, hlast⟩
  obtain ⟨at_, hm, hle⟩ := hlast.elapsed
  exact absurd hle (not_le.mpr (hlate _ hm))

end KubeFdb
