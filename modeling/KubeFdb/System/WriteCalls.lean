import KubeFdb.System.Store

/-!
# 書き込みの呼び出しと再試行

`transact` は、結果の分からない commit（`commit_unknown_result`）や衝突の後で、同じ呼び出しを
もう一度走らせる。前の試行が commit していたかどうかは、鍵の最新の record の UUID が
`lastWriteUUID` に等しいかどうかだけで判断する。

呼び出しが高々一つの record を書き、ちょうど一つ書いたときに限って成功を返すのは、再試行が始まる
たびに、前の試行が書いた record がまだ鍵の最新であるとき（`RetryFindsOwn`）である
（`calls_exactly_once`）。ほかの client が同じ鍵を書いたり、compaction が tombstone を消したりすると、
再試行は自分の record を見つけられない。
-/

namespace KubeFdb

open Tuple

inductive WriteStatus where
  | running
  | done (success : Bool)
deriving DecidableEq

/-- 途中の `Create`、`Update`、`Delete`。`appended` は commit した record を持つ ghost である。 -/
structure WriteCall where
  op : WriteOp
  lastWriteUUID : UUID
  status : WriteStatus
  appended : List RevRecord
deriving DecidableEq

/-- 試行の終わり方。 -/
inductive Fate where
  | committed
  /-- commit したが、結果が分からない。 -/
  | unknownCommitted
  /-- commit していない。衝突か、結果の分からない commit である。 -/
  | notCommitted
deriving DecidableEq

/-- 試行の後の呼び出し。`tx` が返した error は再試行されない。 -/
def WriteCall.after (c : WriteCall) (uuid : UUID) (fate : Fate) : Except Err TxOut → WriteCall
  | .error _ => { c with status := .done false }
  | .ok out =>
    let c := { c with lastWriteUUID := if out.appended.isSome then uuid else c.lastWriteUUID }
    match fate with
    | .committed =>
      { c with
        status := .done out.result.writeSuccess, appended := c.appended ++ out.appended.toList }
    | .unknownCommitted => { c with appended := c.appended ++ out.appended.toList }
    | .notCommitted => c

/-- `usedUUIDs` は、これまでに `createUUID` が返した値である。 -/
structure Clients where
  store : Store
  calls : List WriteCall
  usedUUIDs : List UUID
deriving DecidableEq

def Clients.init : Clients := ⟨.init, [], []⟩

inductive ClientLabel where
  /-- 書き込みのほかの手。 -/
  | other (a : StoreLabel)
  | start (op : WriteOp) (uuid : UUID)
  | attempt (i : Nat) (uuid : UUID) (v : Nat) (fate : Fate)
deriving DecidableEq

def StoreLabel.isWrite : StoreLabel → Bool
  | .write _ _ _ _ => true
  | _ => false

/-- 一手。`createUUID` は新しい値を返す。 -/
def Clients.step (cfg : Config) (s : Clients) : ClientLabel → Option Clients
  | .other a =>
    if a.isWrite then none else (s.store.step cfg a).map (fun t => { s with store := t })
  | .start op uuid =>
    if uuid ∈ s.usedUUIDs then none
    else some { s with
      calls := s.calls ++ [⟨op, uuid, .running, []⟩], usedUUIDs := uuid :: s.usedUUIDs }
  | .attempt i uuid v fate =>
    match s.calls[i]? with
    | none => none
    | some c =>
      if c.status = .running ∧ uuid ∉ s.usedUUIDs then
        (s.store.step cfg (.write c.op c.lastWriteUUID uuid v)).map (fun t =>
          { store := if fate = .notCommitted then s.store else t
            calls := s.calls.set i
              (c.after uuid fate (c.op.tx cfg c.lastWriteUUID uuid v s.store.db))
            usedUUIDs := uuid :: s.usedUUIDs })
      else none

/-- 試行の手の前の条件。この呼び出しがもう record を書いていれば、それはまだ鍵の最新である。 -/
def RetryFindsOwn (s : Clients) : ClientLabel → Prop
  | .attempt i _ _ _ => ∀ c ∈ s.calls[i]?, ∀ r ∈ c.appended,
      ∃ last ∈ s.store.db.getLast c.op.key, last.rev = r.rev
  | _ => True

instance (s : Clients) : (a : ClientLabel) → Decidable (RetryFindsOwn s a)
  | .attempt i _ _ _ => inferInstanceAs (Decidable (∀ c ∈ s.calls[i]?, ∀ r ∈ c.appended,
      ∃ last ∈ s.store.db.getLast c.op.key, last.rev = r.rev))
  | .other _ => .isTrue trivial
  | .start _ _ => .isTrue trivial

/-- 高々一つの record を書き、終わったときの答えがそれに合うこと。 -/
structure WriteCall.ExactlyOnce (c : WriteCall) : Prop where
  atMostOne : c.appended.length ≤ 1
  success_iff : ∀ success, c.status = .done success → (success = true ↔ c.appended.length = 1)

/-! ## 不変条件 -/

/-- 一つの呼び出しについて保つもの。`hist` は commit された record である。 -/
structure WriteCall.Inv (c : WriteCall) (hist : List RevRecord) (used : List UUID) : Prop where
  once : c.ExactlyOnce
  used : c.lastWriteUUID ∈ used
  committed : ∀ r ∈ c.appended, r ∈ hist
  /-- 書いた record は、鍵の最新であれば再試行が見分けられる。 -/
  recognises : ∀ r ∈ c.appended, r.key = c.op.key ∧ c.op.Recognises r c.lastWriteUUID
  /-- 最後の UUID の record は、この呼び出しが書いたものである。 -/
  own : ∀ r ∈ hist, r.record.writeUUID = c.lastWriteUUID → r ∈ c.appended
  notTooLarge : c.appended ≠ [] → c.op.tooLarge = false

structure Clients.Inv (cfg : Config) (s : Clients) : Prop where
  store : ∃ recs, s.store.Inv cfg recs
  used : ∀ r ∈ s.store.committed, r.record.writeUUID ∈ s.usedUUIDs
  calls : ∀ c ∈ s.calls, c.Inv s.store.committed s.usedUUIDs

variable {cfg : Config} {c : WriteCall} {recs hist : List RevRecord} {db : Db} {used : List UUID}
  {uuid : UUID}

theorem WriteOp.Recognises.uuid_eq {op : WriteOp} {l : RevRecord} {u : UUID}
    (h : op.Recognises l u) : u = l.record.writeUUID := by
  cases op with
  | create key value lease => exact h.2
  | update key value revision lease => exact h.2.2
  | delete key revision => exact h.2

/-- 書いた record は、自分の UUID で見分けられる。 -/
theorem WriteOp.Writes.recognises {op : WriteOp} {last : Option RevRecord} {record : Record}
    {size : Int} (hw : op.Writes last record size) {r : RevRecord}
    (hr : r.record = { record with writeUUID := uuid })
    (hlast : ∀ l ∈ last, versionstampToInt64 l.rev ≠ versionstampToInt64 r.rev) :
    op.Recognises r uuid := by
  cases hw with
  | createNew key value lease => exact ⟨by rw [hr], by rw [hr]⟩
  | createOver key value lease l hd => exact ⟨by rw [hr], by rw [hr]⟩
  | update key value revision lease l hd hrev =>
    exact ⟨by rw [hr], fun hc => hlast l rfl (hrev.trans hc.symm), by rw [hr]⟩
  | delete key revision l hd hrev => exact ⟨by rw [hr], by rw [hr]⟩

/-- UUID を一つ使っても、呼び出しについて保つものは変わらない。 -/
theorem WriteCall.Inv.use (h : c.Inv hist used) (uuid : UUID) : c.Inv hist (uuid :: used) :=
  ⟨h.once, List.mem_cons_of_mem _ h.used, h.committed, h.recognises, h.own, h.notTooLarge⟩

/-- ほかの呼び出しが書いた record は、新しい UUID を持つ。 -/
theorem WriteCall.Inv.grow (h : c.Inv hist used) {new : List RevRecord}
    (hnew : ∀ r ∈ new, r.record.writeUUID ∉ used) : c.Inv (hist ++ new) used where
  once := h.once
  used := h.used
  committed := fun r hr => List.mem_append_left _ (h.committed r hr)
  recognises := h.recognises
  own := fun r hr hu => by
    rcases List.mem_append.mp hr with hr | hr
    · exact h.own r hr hu
    · exact absurd (hu ▸ h.used) (hnew r hr)
  notTooLarge := h.notTooLarge

/-- transaction が書いた record。 -/
def appendedBy : Except Err TxOut → List RevRecord
  | .error _ => []
  | .ok out => out.appended.toList

theorem appendedBy_uuid (cfg : Config) (h : db.Holds recs) (op : WriteOp)
    (lastWriteUUID uuid : UUID) (v : Nat) :
    ∀ r ∈ appendedBy (op.tx cfg lastWriteUUID uuid v db), r.record.writeUUID = uuid := by
  have hcase := tx_cases cfg h op lastWriteUUID uuid v
  generalize op.tx cfg lastWriteUUID uuid v db = out at hcase
  cases hcase with
  | wrote record size result hw hsucc hn =>
    intro r hr
    rw [List.mem_singleton.mp hr]
    rfl
  | _ => exact fun r hr => absurd hr List.not_mem_nil

theorem Store.step_write {s t : Store} {op : WriteOp} {lastWriteUUID : UUID} {v : Nat}
    (h : s.step cfg (.write op lastWriteUUID uuid v) = some t) :
    s.db.CanCommit cfg v ∧
      t.committed = s.committed ++ appendedBy (op.tx cfg lastWriteUUID uuid v s.db) := by
  simp only [Store.step] at h
  split at h
  · next hc =>
    refine ⟨hc, ?_⟩
    cases htx : op.tx cfg lastWriteUUID uuid v s.db with
    | error e =>
      simp only [htx] at h
      rw [← Option.some.inj h]
      exact (List.append_nil _).symm
    | ok out =>
      simp only [htx] at h
      rw [← Option.some.inj h]
      rfl
  · cases h

/-- 再試行が自分の record を認めなかったのなら、まだ何も書いていない。 -/
theorem WriteCall.Inv.appended_eq_nil (h : c.Inv hist used)
    (hown : ∀ r ∈ c.appended, newest RevRecord.key recs c.op.key = some r)
    (hn : ∀ l, newest RevRecord.key recs c.op.key = some l → ¬ c.op.Recognises l c.lastWriteUUID) :
    c.appended = [] := by
  refine List.eq_nil_iff_forall_not_mem.mpr (fun r hr => ?_)
  exact hn r (hown r hr) (h.recognises r hr).2

/-- 書いた数に合う答えを返す。 -/
theorem WriteCall.Inv.finish (h : c.Inv hist used) (success : Bool)
    (hs : success = true ↔ c.appended.length = 1) :
    ({ c with status := .done success } : WriteCall).Inv hist used where
  once := ⟨h.once.atMostOne, fun b hb => by cases hb; exact hs⟩
  used := h.used
  committed := h.committed
  recognises := h.recognises
  own := h.own
  notTooLarge := h.notTooLarge

/-- 書いた試行の後。commit していなくても `lastWriteUUID` は新しい値になる。 -/
theorem WriteCall.Inv.wrote (h : c.Inv hist used) (hrun : c.status = .running)
    (hnil : c.appended = []) (hused : ∀ r ∈ hist, r.record.writeUUID ∈ used) (hfresh : uuid ∉ used)
    (new : RevRecord) (hk : new.key = c.op.key) (hr : c.op.Recognises new uuid)
    (ht : c.op.tooLarge = false) (status : WriteStatus) (hs : status = .running ∨ status = .done true) :
    ({ c with lastWriteUUID := uuid, status := status, appended := [new] } : WriteCall).Inv
        (hist ++ [new]) (uuid :: used) ∧
      ({ c with lastWriteUUID := uuid } : WriteCall).Inv hist (uuid :: used) := by
  have hold : ∀ r ∈ hist, r.record.writeUUID ≠ uuid := fun r hr hc => hfresh (hc ▸ hused r hr)
  constructor
  · refine ⟨⟨by simp, fun success hd => ?_⟩, List.mem_cons_self, ?_, ?_, ?_, fun _ => ht⟩
    · rcases hs with rfl | rfl
      · cases hd
      · cases hd
        simp
    · intro r hm
      exact List.mem_append_right _ hm
    · intro r hm
      rw [List.mem_singleton.mp hm]
      exact ⟨hk, hr⟩
    · intro r hm hru
      rcases List.mem_append.mp hm with hm | hm
      · exact absurd hru (hold r hm)
      · exact hm
  · refine ⟨⟨h.once.atMostOne, fun success hd => ?_⟩, List.mem_cons_self, h.committed, ?_, ?_,
      h.notTooLarge⟩
    · rw [show c.status = _ from hd] at hrun
      cases hrun
    · intro r hm
      rw [show c.appended = [] from hnil] at hm
      exact absurd hm List.not_mem_nil
    · intro r hm hru
      exact absurd hru (hold r hm)

/-- 試行は呼び出しについて保つものを保つ。 -/
theorem WriteCall.Inv.after (h : c.Inv hist used) (hrun : c.status = .running)
    (ht : db.Tracks recs hist) (hb : db.Bounded cfg hist) {v : Nat} (hcan : db.CanCommit cfg v)
    (hused : ∀ r ∈ hist, r.record.writeUUID ∈ used) (hfresh : uuid ∉ used)
    (hown : ∀ r ∈ c.appended, newest RevRecord.key recs c.op.key = some r) (fate : Fate) :
    (c.after uuid fate (c.op.tx cfg c.lastWriteUUID uuid v db)).Inv
      (hist ++ if fate = .notCommitted then []
        else appendedBy (c.op.tx cfg c.lastWriteUUID uuid v db)) (uuid :: used) := by
  have hkeep := h.use uuid
  have hcase := tx_cases cfg ht.holds c.op c.lastWriteUUID uuid v
  generalize htx : c.op.tx cfg c.lastWriteUUID uuid v db = out at hcase
  cases hcase with
  | wrote record size result hw hsucc hn =>
    have hnil := h.appended_eq_nil hown hn
    have hlarge : c.op.tooLarge = false := by
      cases hl : c.op.tooLarge with
      | false => rfl
      | true => simp [WriteOp.tx, hl] at htx
    have hnew := append_tracks ht hb hcan hlarge hw uuid
    have hr : c.op.Recognises (append cfg v uuid record size db).1 uuid := by
      refine hw.recognises rfl (fun l hl he => ?_)
      have hlm := ht.sub l (newest_mem hl).1
      have hlt := (SortedBy.append_iff.mp hnew.sorted).2.2 l hlm _ List.mem_cons_self
      have hwf := hnew.wf _ (List.mem_append_right _ List.mem_cons_self)
      exact absurd he (((ht.wf l hlm).rev.lt_iff hwf.rev).mp hlt).ne
    have hboth := h.wrote hrun hnil hused hfresh _ hw.key_eq hr hlarge
    cases fate with
    | committed =>
      have hgoal := (hboth (.done true) (Or.inr rfl)).1
      simpa [WriteCall.after, appendedBy, hsucc, hnil] using hgoal
    | unknownCommitted =>
      have hgoal := (hboth .running (Or.inl rfl)).1
      rw [← hrun] at hgoal
      simpa [WriteCall.after, appendedBy, hnil] using hgoal
    | notCommitted =>
      have hgoal := (hboth .running (Or.inl rfl)).2
      simpa [WriteCall.after] using hgoal
  | recognised l result hl hrec hsucc =>
    -- 自分の UUID の record だから、前の試行が書いたものである
    have hmem := h.own l (ht.sub l (newest_mem hl).1) hrec.uuid_eq.symm
    have hone : c.appended.length = 1 :=
      le_antisymm h.once.atMostOne (List.length_pos_of_mem hmem)
    have hdone := hkeep.finish true (iff_of_true rfl hone)
    cases fate with
    | committed => simpa [WriteCall.after, appendedBy, TxOut.readOnly, hsucc] using hdone
    | unknownCommitted => simpa [WriteCall.after, appendedBy, TxOut.readOnly] using hkeep
    | notCommitted => simpa [WriteCall.after, TxOut.readOnly] using hkeep
  | refused result hsucc hn =>
    have hnil := h.appended_eq_nil hown hn
    have hdone := hkeep.finish false (by simp [hnil])
    cases fate with
    | committed => simpa [WriteCall.after, appendedBy, TxOut.readOnly, hsucc] using hdone
    | unknownCommitted => simpa [WriteCall.after, appendedBy, TxOut.readOnly] using hkeep
    | notCommitted => simpa [WriteCall.after, TxOut.readOnly] using hkeep
  | keyExists hn =>
    have hnil := h.appended_eq_nil hown hn
    have hdone := hkeep.finish false (by simp [hnil])
    cases fate <;> simpa [WriteCall.after, appendedBy] using hdone
  | tooLarge hl =>
    have hnil : c.appended = [] := by
      by_contra hne
      exact absurd ((h.notTooLarge hne).symm.trans hl) (by decide)
    have hdone := hkeep.finish false (by simp [hnil])
    cases fate <;> simpa [WriteCall.after, appendedBy] using hdone

theorem Clients.init_inv (cfg : Config) : Clients.init.Inv cfg where
  store := ⟨[], Store.init_inv cfg⟩
  used := fun _ hr => absurd hr List.not_mem_nil
  calls := fun _ hc => absurd hc List.not_mem_nil

/-- 書き込みのほかの手は record を足さない。 -/
theorem Store.committed_of_not_write {s t : Store} {a : StoreLabel} (h : s.step cfg a = some t)
    (ha : a.isWrite = false) : t.committed = s.committed := by
  cases a with
  | tick v =>
    simp only [Store.step] at h
    split at h
    · rw [← Option.some.inj h]
    · cases h
  | write op lastWriteUUID uuid v => cases ha
  | startCompact endRev =>
    simp only [Store.step] at h
    split at h
    · rw [← Option.some.inj h]
    · rw [← Option.some.inj h]
  | compactBatch i n v known =>
    simp only [Store.step] at h
    split at h
    · split at h
      · cases h
      · split at h
        · rw [← Option.some.inj h]
        · cases h
    · cases h

/-- 始まったばかりの呼び出し。新しい UUID の record はまだない。 -/
theorem WriteCall.start_inv (op : WriteOp) (hused : ∀ r ∈ hist, r.record.writeUUID ∈ used)
    (hfresh : uuid ∉ used) : WriteCall.Inv ⟨op, uuid, .running, []⟩ hist (uuid :: used) where
  once := ⟨by simp, fun success hd => by cases hd⟩
  used := List.mem_cons_self
  committed := fun r hr => absurd hr List.not_mem_nil
  recognises := fun r hr => absurd hr List.not_mem_nil
  own := fun r hr (hu : r.record.writeUUID = uuid) => absurd (hu ▸ hused r hr) hfresh
  notTooLarge := fun hne => absurd rfl hne

/-- 条件を満たす試行は、書いた record が鍵の最新であるうちに再試行する。 -/
theorem RetryFindsOwn.newest_own {s : Clients} {i v : Nat} {fate : Fate} (h : s.Inv cfg)
    (hinv : s.store.Inv cfg recs) (hok : RetryFindsOwn s (.attempt i uuid v fate))
    (hi : s.calls[i]? = some c) :
    ∀ r ∈ c.appended, newest RevRecord.key recs c.op.key = some r := by
  intro r hr
  obtain ⟨last, hlast, hrev⟩ := hok c hi r hr
  rw [getLast_eq hinv.tracks.holds] at hlast
  obtain ⟨l, hl, rfl⟩ := Option.map_eq_some_iff.mp hlast
  have hlm := hinv.tracks.sub l (newest_mem hl).1
  rw [hl, hinv.tracks.sorted.eq_of_index_eq hlm
    ((h.calls c (List.mem_of_getElem? hi)).committed r hr) hrev]

theorem WriteCall.after_op {call : WriteCall} {uuid : UUID} {fate : Fate} {res : Except Err TxOut} :
    (call.after uuid fate res).op = call.op := by
  cases res with
  | error err => rfl
  | ok out => cases fate <;> rfl

/-! ## 一手の形 -/

/-- client の手がすることのすべて。 -/
inductive Clients.Effect (cfg : Config) (s : Clients) : ClientLabel → Clients → Prop
  | other (a : StoreLabel) (t : Store) (ha : a.isWrite = false) (ht : s.store.step cfg a = some t) :
    Effect cfg s (.other a) { s with store := t }
  | started (op : WriteOp) (uuid : UUID) (hfresh : uuid ∉ s.usedUUIDs) :
    Effect cfg s (.start op uuid)
      { s with calls := s.calls ++ [⟨op, uuid, .running, []⟩], usedUUIDs := uuid :: s.usedUUIDs }
  | attempted (i : Nat) (uuid : UUID) (v : Nat) (fate : Fate) (c : WriteCall) (t : Store)
      (hi : s.calls[i]? = some c) (hrun : c.status = .running) (hfresh : uuid ∉ s.usedUUIDs)
      (ht : s.store.step cfg (.write c.op c.lastWriteUUID uuid v) = some t) :
    Effect cfg s (.attempt i uuid v fate)
      { store := if fate = .notCommitted then s.store else t
        calls := s.calls.set i (c.after uuid fate (c.op.tx cfg c.lastWriteUUID uuid v s.store.db))
        usedUUIDs := uuid :: s.usedUUIDs }

theorem Clients.step_effect {s s' : Clients} {a : ClientLabel} (hs : s.step cfg a = some s') :
    Clients.Effect cfg s a s' := by
  cases a with
  | other a =>
    simp only [Clients.step] at hs
    split at hs
    · cases hs
    · next ha =>
      obtain ⟨t, ht, rfl⟩ := Option.map_eq_some_iff.mp hs
      exact .other a t (by simpa using ha) ht
  | start op uuid =>
    simp only [Clients.step] at hs
    split at hs
    · cases hs
    · next hfresh =>
      rw [← Option.some.inj hs]
      exact .started op uuid hfresh
  | attempt i uuid v fate =>
    simp only [Clients.step] at hs
    split at hs
    · cases hs
    · next c hi =>
      split at hs
      · next hcond =>
        obtain ⟨t, ht, rfl⟩ := Option.map_eq_some_iff.mp hs
        exact .attempted i uuid v fate c t hi hcond.1 hcond.2 ht
      · cases hs

/-- 試行が足す record。 -/
def attemptAppends (fate : Fate) (out : Except Err TxOut) : List RevRecord :=
  if fate = .notCommitted then [] else appendedBy out

theorem attemptAppends_uuid (cfg : Config) (h : db.Holds recs) (fate : Fate) (op : WriteOp)
    (lastWriteUUID uuid : UUID) (v : Nat) :
    ∀ r ∈ attemptAppends fate (op.tx cfg lastWriteUUID uuid v db), r.record.writeUUID = uuid := by
  unfold attemptAppends
  split
  · exact fun r hr => absurd hr List.not_mem_nil
  · exact appendedBy_uuid cfg h op lastWriteUUID uuid v

/-- 試行の後の store。 -/
theorem attempt_store {s t : Store} (hinv : s.Inv cfg recs) {op : WriteOp} {lastWriteUUID : UUID}
    {v : Nat} (fate : Fate) (ht : s.step cfg (.write op lastWriteUUID uuid v) = some t) :
    (∃ recs', Store.Inv cfg (if fate = .notCommitted then s else t) recs') ∧
      (if fate = .notCommitted then s else t).committed =
        s.committed ++ attemptAppends fate (op.tx cfg lastWriteUUID uuid v s.db) := by
  obtain ⟨recs', -, hinv'⟩ := Store.inv_step hinv ht
  unfold attemptAppends
  split
  · exact ⟨⟨recs, hinv⟩, (List.append_nil _).symm⟩
  · exact ⟨⟨recs', hinv'⟩, (Store.step_write ht).2⟩

/-- commit された record の UUID は、使われたものである。 -/
theorem Clients.used_step {s s' : Clients} {a : ClientLabel} (hinv : s.store.Inv cfg recs)
    (hused : ∀ r ∈ s.store.committed, r.record.writeUUID ∈ s.usedUUIDs)
    (hs : s.step cfg a = some s') :
    (∃ recs', s'.store.Inv cfg recs') ∧
      ∀ r ∈ s'.store.committed, r.record.writeUUID ∈ s'.usedUUIDs := by
  cases Clients.step_effect hs with
  | other a t ha ht =>
    obtain ⟨recs', -, hinv'⟩ := Store.inv_step hinv ht
    exact ⟨⟨recs', hinv'⟩, by rw [Store.committed_of_not_write ht ha]; exact hused⟩
  | started op uuid hfresh =>
    exact ⟨⟨recs, hinv⟩, fun r hr => List.mem_cons_of_mem _ (hused r hr)⟩
  | attempted i uuid v fate c t hi hrun hfresh ht =>
    obtain ⟨hstore, hhist⟩ := attempt_store hinv fate ht
    refine ⟨hstore, ?_⟩
    simp only [hhist]
    intro r hr
    rcases List.mem_append.mp hr with hr | hr
    · exact List.mem_cons_of_mem _ (hused r hr)
    · rw [attemptAppends_uuid cfg hinv.tracks.holds fate c.op c.lastWriteUUID uuid v r hr]
      exact List.mem_cons_self

/-- 条件を満たす手は不変条件を保つ。 -/
theorem Clients.inv_step {s s' : Clients} {a : ClientLabel} (h : s.Inv cfg)
    (hok : RetryFindsOwn s a) (hs : s.step cfg a = some s') : s'.Inv cfg := by
  obtain ⟨recs, hinv⟩ := h.store
  obtain ⟨hstore, hused⟩ := Clients.used_step hinv h.used hs
  refine ⟨hstore, hused, fun c' hc' => ?_⟩
  cases Clients.step_effect hs with
  | other a t ha ht =>
    rw [Store.committed_of_not_write ht ha]
    exact h.calls c' hc'
  | started op uuid hfresh =>
    rcases List.mem_append.mp hc' with hc' | hc'
    · exact (h.calls c' hc').use uuid
    · rw [List.mem_singleton.mp hc']
      exact WriteCall.start_inv op h.used hfresh
  | attempted i uuid v fate c t hi hrun hfresh ht =>
    have huuid := attemptAppends_uuid cfg hinv.tracks.holds fate c.op c.lastWriteUUID uuid v
    simp only [(attempt_store hinv fate ht).2]
    rcases List.mem_or_eq_of_mem_set hc' with hc' | rfl
    · exact ((h.calls c' hc').grow (fun r hr => huuid r hr ▸ hfresh)).use uuid
    · exact (h.calls c (List.mem_of_getElem? hi)).after hrun hinv.tracks hinv.bounded
        (Store.step_write ht).1 h.used hfresh (hok.newest_own h hinv hi) fate

/-! ## run -/

/-- 再試行がいつも自分の record を見つける run では、どの呼び出しも高々一つの record を書き、
ちょうど一つ書いたときに限って成功を返す。 -/
theorem calls_exactly_once (cfg : Config) {as : List ClientLabel} {s : Clients}
    (hr : runSteps (Clients.step cfg) .init as = some s)
    (hok : StepsMeet (Clients.step cfg) RetryFindsOwn .init as) :
    ∀ c ∈ s.calls, (∀ r ∈ c.appended, r ∈ s.store.committed) ∧ c.ExactlyOnce := by
  have h := run_invariant_of RetryFindsOwn (P := Clients.Inv cfg)
    (fun s a s' hp hok hs => Clients.inv_step hp hok hs) (Clients.init_inv cfg) hok hr
  exact fun c hc => ⟨(h.calls c hc).committed, (h.calls c hc).once⟩

/-- 結果の分からない commit の後、別の鍵への書き込みを挟んで再試行する。 -/
theorem calls_exactly_once_after_unknown :
    ∃ s, runSteps (Clients.step .default) .init
        [.start (.create [97] [1] 0) 1, .attempt 0 2 2 .unknownCommitted,
          .start (.create [98] [2] 0) 3, .attempt 1 4 3 .committed,
          .attempt 0 5 4 .committed] = some s ∧
      ∀ c ∈ s.calls, c.ExactlyOnce := by
  obtain ⟨s, hs⟩ : ∃ s, runSteps (Clients.step .default) .init
      [.start (.create [97] [1] 0) 1, .attempt 0 2 2 .unknownCommitted,
        .start (.create [98] [2] 0) 3, .attempt 1 4 3 .committed,
        .attempt 0 5 4 .committed] = some s :=
    Option.isSome_iff_exists.mp (by decide +kernel)
  exact ⟨s, hs, fun c hc => (calls_exactly_once .default hs (by decide +kernel) c hc).2⟩

/-- 結果の分からない commit の後、ほかの client が鍵を消すと、再試行はもう一度書く。 -/
theorem create_appended_twice :
    ∃ s, runSteps (Clients.step .default) .init
        [.start (.create [97] [1] 0) 1, .attempt 0 2 2 .unknownCommitted,
          .start (.delete [97] 0) 3, .attempt 1 4 3 .committed,
          .attempt 0 5 4 .committed] = some s ∧
      ∃ c ∈ s.calls, c.status = .done true ∧ c.appended.length = 2 := by
  have h : (runSteps (Clients.step .default) .init
      [.start (.create [97] [1] 0) 1, .attempt 0 2 2 .unknownCommitted,
        .start (.delete [97] 0) 3, .attempt 1 4 3 .committed,
        .attempt 0 5 4 .committed]).any (fun s =>
      decide (∃ c ∈ s.calls, c.status = .done true ∧ c.appended.length = 2)) = true := by
    decide +kernel
  exact exists_of_any_decide h

end KubeFdb
