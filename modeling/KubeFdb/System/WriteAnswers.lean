import KubeFdb.System.WriteCalls

/-!
# 書き込みの答え

書き込みの呼び出しが client に返すものを述べる。

* `guarded_write_exact` — 一回の試行は、鍵の最新の record が条件に合うときに限って成功する。成功すれば
  record をちょうど一つ足して、それを返す。そうでなければ何も変えない
* `recognised_answer_eq` — 結果の分からない commit を再試行が認めたときの答えは、その commit の試行が
  自分の future から返したはずの答えに等しい

前者の答えは、手元の record の revision を commit の後で埋めて作る。後者は索引と log から読み直して作る。
どちらも `tx_answer` により、書いた record の `KeyValue` である。
-/

namespace KubeFdb

open Tuple

variable {cfg : Config} {recs : List RevRecord}

/-! ## 条件付きの書き込み -/

/-- 鍵の最新の record `last` が、操作の条件に合うこと。 -/
def WriteOp.Allowed : WriteOp → Option RevRecord → Prop
  | .create _ _ _, last => ∀ l ∈ last, l.record.isDelete = true
  | .update _ _ revision _, last =>
    ∃ l ∈ last, l.record.isDelete = false ∧ l.revision = revision
  | .delete _ revision, last =>
    ∃ l ∈ last, l.record.isDelete = false ∧ (revision = 0 ∨ l.revision = revision)

theorem WriteOp.allowed_iff {op : WriteOp} {last : Option RevRecord} :
    op.Allowed last ↔ ∃ record size, op.Writes last record size := by
  constructor
  · intro h
    cases op with
    | create key value lease =>
      cases last with
      | none => exact ⟨_, _, .createNew key value lease⟩
      | some l => exact ⟨_, _, .createOver key value lease l (h l rfl)⟩
    | update key value revision lease =>
      obtain ⟨l, hl, hd, hr⟩ := h
      cases hl
      exact ⟨_, _, .update key value revision lease l hd hr⟩
    | delete key revision =>
      obtain ⟨l, hl, hd, hr⟩ := h
      cases hl
      exact ⟨_, _, .delete key revision l hd hr⟩
  · rintro ⟨record, size, hw⟩
    cases hw with
    | createNew key value lease => exact fun l hl => by cases hl
    | createOver key value lease l hd => exact fun l' hl => by cases hl; exact hd
    | update key value revision lease l hd hr => exact ⟨l, rfl, hd, hr⟩
    | delete key revision l hd hr => exact ⟨l, rfl, hd, hr⟩

def WriteOp.isCreate : WriteOp → Bool
  | .create _ _ _ => true
  | _ => false

/-- 試行が成功を返したか。 -/
def succeeded : Except Err TxOut → Bool
  | .ok out => out.result.writeSuccess
  | .error _ => false

/-- 一回の試行 `out` が store を `s` から `s'` に進めるときに言えること。`recs` は試行の前の record の
列である。 -/
structure GuardedWrite (cfg : Config) (op : WriteOp) (uuid : UUID) (recs : List RevRecord)
    (s : Store) (out : Except Err TxOut) (s' : Store) : Prop where
  success_iff : succeeded out = true ↔
    op.tooLarge = false ∧ op.Allowed (newest RevRecord.key recs op.key)
  /-- 足された record は一つで、返るのはその revision と `KeyValue` である。 -/
  wrote : ∀ o, out = .ok o → o.result.writeSuccess = true → ∃ w record size,
    op.Writes (newest RevRecord.key recs op.key) record size ∧
      w.record = { record with writeUUID := uuid } ∧ w.key = op.key ∧
      s'.db.Holds (recs ++ [w]) ∧ (∀ r ∈ s.committed, r.revision < w.revision) ∧
      o.result.getResult cfg = (w.revision, op.answer cfg w, true)
  /-- 成功しなければ、read version のほかは何も変わらない。 -/
  unchanged : succeeded out = false → s'.db = { s.db with version := s'.db.version }
  /-- 生きている鍵への `Update` と `Delete` は、断られてもその鍵の最新の `KeyValue` を返す。 -/
  returned : succeeded out = false → op.tooLarge = false → op.isCreate = false →
    ∀ l, newest RevRecord.key recs op.key = some l → l.record.isDelete = false →
      ∃ o, out = .ok o ∧ (o.result.getResult cfg).2.1 = some (kvOf cfg l)

theorem Store.write_db {s s' : Store} {op : WriteOp} {lastWriteUUID uuid : UUID} {v : Nat}
    (h : s.step cfg (.write op lastWriteUUID uuid v) = some s') :
    (∀ e, op.tx cfg lastWriteUUID uuid v s.db = .error e → s' = s) ∧
      ∀ o, op.tx cfg lastWriteUUID uuid v s.db = .ok o → s'.db = o.db.commit v := by
  obtain ⟨hc, -⟩ := Store.step_write h
  simp only [Store.step, if_pos hc] at h
  constructor
  · intro e he
    rw [he] at h
    exact (Option.some.inj h).symm
  · intro o ho
    rw [ho] at h
    rw [← Option.some.inj h]

/-- 大きすぎない試行が、前の record を認めないときの答え。 -/
theorem TxAnswer.guarded {s s' : Store} {op : WriteOp} {lastWriteUUID uuid : UUID} {v : Nat}
    {out : Except Err TxOut} (hinv : s.Inv cfg recs) (hc : s.db.CanCommit cfg v)
    (ht : op.tooLarge = false)
    (hno : ∀ l, newest RevRecord.key recs op.key = some l → ¬ op.Recognises l lastWriteUUID)
    (h : op.TxAnswer cfg (newest RevRecord.key recs op.key) lastWriteUUID uuid v s.db out)
    (herr : ∀ e, out = .error e → s' = s) (hok : ∀ o, out = .ok o → s'.db = o.db.commit v) :
    GuardedWrite cfg op uuid recs s out s' := by
  cases h with
  | wrote record size result hw hn hres =>
    have hs : result.writeSuccess = true := congrArg (·.2.2) hres
    have htrack := append_tracks hinv.tracks hinv.bounded hc ht hw uuid
    refine ⟨iff_of_true hs ⟨ht, WriteOp.allowed_iff.mpr ⟨record, size, hw⟩⟩, ?_,
      fun hf => absurd (hs.symm.trans hf) (by decide),
      fun hf => absurd (hs.symm.trans hf) (by decide)⟩
    rintro o ho -
    cases ho
    refine ⟨_, record, size, hw, rfl, hw.key_eq, ?_, ?_, hres⟩
    · rw [hok _ rfl]
      exact htrack.holds.congr rfl rfl
    · intro r hr
      exact (hinv.bounded.le r hr).trans_lt (incrementAndGet_spec hinv.bounded hc).2
  | recognised l result hl hr hres => exact absurd hr (hno l hl)
  | refused result hn hnw hres =>
    have hs : result.writeSuccess = false := congrArg (·.2.2) hres
    refine ⟨?_, ?_, fun _ => ?_, fun _ _ _ l hl hd => ⟨_, rfl, ?_⟩⟩
    · refine iff_of_false (by rw [succeeded, TxOut.readOnly, hs]; decide) (fun hcon => ?_)
      obtain ⟨record, size, hw⟩ := WriteOp.allowed_iff.mp hcon.2
      exact hnw record size hw
    · intro o ho hso
      cases ho
      exact absurd (hs.symm.trans hso) (by decide)
    · rw [hok _ rfl]
      rfl
    · show (result.getResult cfg).2.1 = _
      rw [hres, hl, Option.filter_some_pos (by simp [RevRecord.live, hd])]
      rfl
  | keyExists key value lease hop hn hnw =>
    refine ⟨?_, fun o ho => ?_, fun _ => ?_, fun _ _ hcr => ?_⟩
    · refine iff_of_false (by simp [succeeded]) (fun hcon => ?_)
      obtain ⟨record, size, hw⟩ := WriteOp.allowed_iff.mp hcon.2
      exact hnw record size hw
    · cases ho
    · rw [herr _ rfl]
    · rw [hop] at hcr
      cases hcr

/-- 大きすぎる試行は何もしない。 -/
theorem guarded_of_tooLarge {s : Store} {op : WriteOp} {uuid : UUID} (ht : op.tooLarge = true) :
    GuardedWrite cfg op uuid recs s (.error .requestTooLarge) s where
  success_iff := iff_of_false (by simp [succeeded])
    (fun hcon => absurd (ht.symm.trans hcon.1) (by decide))
  wrote := fun o ho => by cases ho
  unchanged := fun _ => rfl
  returned := fun _ hf => absurd (ht.symm.trans hf) (by decide)

/-- 一回の試行で終わる呼び出しの答え。`lastWriteUUID` は呼び出しが始まるときに作られ、store のどの
record のものでもない。 -/
theorem guarded_write_exact (cfg : Config) {s s' : Store} (h : s.Reachable cfg) {op : WriteOp}
    {lastWriteUUID uuid : UUID} {v : Nat}
    (hfresh : ∀ r ∈ s.committed, r.record.writeUUID ≠ lastWriteUUID)
    (hs : s.step cfg (.write op lastWriteUUID uuid v) = some s') :
    ∃ recs, s.db.Holds recs ∧
      GuardedWrite cfg op uuid recs s (op.tx cfg lastWriteUUID uuid v s.db) s' := by
  obtain ⟨recs, hinv⟩ := h.inv
  obtain ⟨hc, -⟩ := Store.step_write hs
  obtain ⟨herr, hok⟩ := Store.write_db hs
  refine ⟨recs, hinv.tracks.holds, ?_⟩
  cases ht : op.tooLarge with
  | true =>
    rw [herr _ (tx_tooLarge ht), tx_tooLarge ht]
    exact guarded_of_tooLarge ht
  | false =>
    refine TxAnswer.guarded hinv hc ht (fun l hl hr => ?_)
      (tx_answer cfg hinv.tracks.holds ht lastWriteUUID uuid v) herr hok
    exact hfresh l (hinv.tracks.sub l (newest_mem hl).1) hr.uuid_eq.symm

/-- revision を合わせた `Update` は成功し、書いた record を返す。 -/
theorem guarded_write_of_update : ∃ s s', runSteps (Store.step .default) .init
      [.write (.create [97] [1] 0) 1 2 2, .write (.create [98] [2] 0) 3 4 3] = some s ∧
    s.step .default (.write (.update [97] [5] 2 0) 5 6 4) = some s' ∧
    ∃ recs, s.db.Holds recs ∧ GuardedWrite .default (.update [97] [5] 2 0) 6 recs s
      ((WriteOp.update [97] [5] 2 0).tx .default 5 6 4 s.db) s' := by
  have h : (runSteps (Store.step .default) .init
      [.write (.create [97] [1] 0) 1 2 2, .write (.create [98] [2] 0) 3 4 3]).any (fun s =>
        (s.step .default (.write (.update [97] [5] 2 0) 5 6 4)).isSome &&
          decide (∀ r ∈ s.committed, r.record.writeUUID ≠ 5)) = true := by decide +kernel
  obtain ⟨s, hs, h⟩ := (Option.any_eq_true _ _).mp h
  obtain ⟨hsome, hfresh⟩ := (Bool.and_eq_true _ _).mp h
  obtain ⟨s', hs'⟩ := Option.isSome_iff_exists.mp hsome
  exact ⟨s, s', hs, hs',
    guarded_write_exact .default ⟨_, hs⟩ (of_decide_eq_true hfresh) hs'⟩

/-- 鍵がなくても、2 MiB を超える値の `Create` は成功しない。 -/
theorem create_tooLarge_refused : ∃ s',
    Store.init.step .default
      (.write (.create [97] (List.replicate (maxRecordSize + 1) 0) 0) 1 2 2) = some s' ∧
    Store.init.db.Holds [] ∧
    (WriteOp.create [97] (List.replicate (maxRecordSize + 1) 0) 0).Allowed
      (newest RevRecord.key [] [97]) ∧
    succeeded ((WriteOp.create [97] (List.replicate (maxRecordSize + 1) 0) 0).tx .default 1 2 2
      Store.init.db) = false := by
  have ht : (WriteOp.create [97] (List.replicate (maxRecordSize + 1) 0) 0).tooLarge = true := by
    simp [WriteOp.tooLarge]
  have hc : Store.init.db.CanCommit .default 2 := by decide
  refine ⟨Store.init, ?_, Db.empty_holds, fun l hl => ?_, ?_⟩
  · simp only [Store.step, if_pos hc, tx_tooLarge ht]
  · cases hl
  · rw [tx_tooLarge ht]
    rfl

/-! ## 再試行の答え -/

/-- commit された record の UUID は互いに異なる。 -/
structure Clients.Distinct (cfg : Config) (s : Clients) : Prop where
  store : ∃ recs, s.store.Inv cfg recs
  used : ∀ r ∈ s.store.committed, r.record.writeUUID ∈ s.usedUUIDs
  uuids : (s.store.committed.map (·.record.writeUUID)).Nodup

theorem Clients.init_distinct (cfg : Config) : Clients.init.Distinct cfg where
  store := ⟨[], Store.init_inv cfg⟩
  used := fun _ hr => absurd hr List.not_mem_nil
  uuids := List.nodup_nil

theorem Clients.Distinct.eq_of_uuid {s : Clients} (h : s.Distinct cfg) {r r' : RevRecord}
    (hr : r ∈ s.store.committed) (hr' : r' ∈ s.store.committed)
    (hu : r.record.writeUUID = r'.record.writeUUID) : r = r' :=
  List.inj_on_of_nodup_map h.uuids hr hr' hu

theorem attemptAppends_eq (fate : Fate) (out : Except Err TxOut) :
    attemptAppends fate out = [] ∨ ∃ w, attemptAppends fate out = [w] := by
  unfold attemptAppends
  split
  · exact Or.inl rfl
  · cases out with
    | error e => exact Or.inl rfl
    | ok o =>
      cases ho : o.appended with
      | none => exact Or.inl (by rw [appendedBy, ho]; rfl)
      | some w => exact Or.inr ⟨w, by rw [appendedBy, ho]; rfl⟩

theorem Clients.distinct_step {s s' : Clients} {a : ClientLabel} (h : s.Distinct cfg)
    (hs : s.step cfg a = some s') : s'.Distinct cfg := by
  obtain ⟨recs, hinv⟩ := h.store
  obtain ⟨hstore, hused⟩ := Clients.used_step hinv h.used hs
  refine ⟨hstore, hused, ?_⟩
  cases Clients.step_effect hs with
  | other a t ha ht =>
    rw [Store.committed_of_not_write ht ha]
    exact h.uuids
  | started op uuid hfresh => exact h.uuids
  | attempted i uuid v fate c t hi hrun hfresh ht =>
    have huuid := attemptAppends_uuid cfg hinv.tracks.holds fate c.op c.lastWriteUUID uuid v
    simp only [(attempt_store hinv fate ht).2]
    rcases attemptAppends_eq fate (c.op.tx cfg c.lastWriteUUID uuid v s.store.db) with hn | ⟨w, hw⟩
    · rw [hn, List.append_nil]
      exact h.uuids
    · rw [hw] at huuid ⊢
      rw [List.map_append, List.map_singleton]
      rw [← List.concat_eq_append]
      refine List.Nodup.concat (fun hm => hfresh ?_) h.uuids
      obtain ⟨r, hr, hru⟩ := List.mem_map.mp hm
      rw [← huuid w List.mem_cons_self, ← hru]
      exact h.used r hr

/-- 手は record を消さず、呼び出しの操作を変えない。 -/
theorem Clients.step_keeps {s s' : Clients} {a : ClientLabel} (hinv : s.store.Inv cfg recs)
    (hs : s.step cfg a = some s') : s.store.committed <+: s'.store.committed ∧
      ∀ (i : Nat) (c : WriteCall), s.calls[i]? = some c →
        ∃ c', s'.calls[i]? = some c' ∧ c'.op = c.op := by
  cases Clients.step_effect hs with
  | other a t ha ht =>
    exact ⟨by rw [Store.committed_of_not_write ht ha], fun i c hi => ⟨c, hi, rfl⟩⟩
  | started op uuid hfresh =>
    refine ⟨List.prefix_rfl, fun i c hi => ⟨c, ?_, rfl⟩⟩
    exact (List.getElem?_append_left (List.getElem?_eq_some_iff.mp hi).1).trans hi
  | attempted j uuid v fate c t hj hrun hfresh ht =>
    refine ⟨by rw [(attempt_store hinv fate ht).2]; exact List.prefix_append _ _, ?_⟩
    intro i c₀ hi
    by_cases hij : j = i
    · subst hij
      rw [hj] at hi
      cases hi
      exact ⟨_, List.getElem?_set_self (List.getElem?_eq_some_iff.mp hj).1, WriteCall.after_op⟩
    · exact ⟨c₀, (List.getElem?_set_ne hij).trans hi, rfl⟩

/-- 呼び出し `i` の試行の結果。 -/
def Clients.attemptOut (cfg : Config) (s : Clients) (i : Nat) (uuid : UUID) (v : Nat) :
    Option TxOut :=
  s.calls[i]?.bind (fun c => (c.op.tx cfg c.lastWriteUUID uuid v s.store.db).toOption)

theorem Clients.attemptOut_eq_some {s : Clients} {i v : Nat} {uuid : UUID} {out : TxOut}
    (h : s.attemptOut cfg i uuid v = some out) : ∃ c, s.calls[i]? = some c ∧
      c.op.tx cfg c.lastWriteUUID uuid v s.store.db = .ok out := by
  obtain ⟨c, hc, ho⟩ := Option.bind_eq_some_iff.mp h
  refine ⟨c, hc, ?_⟩
  cases htx : c.op.tx cfg c.lastWriteUUID uuid v s.store.db with
  | error e => rw [htx] at ho; cases ho
  | ok o => rw [htx] at ho; cases ho; rfl

/-- 再試行が、UUID `uuid` の commit を自分のものと認めて成功を返すこと。 -/
def Clients.RecognisesAt (s : Clients) (i : Nat) (uuid : UUID) (out : TxOut) : Prop :=
  (∃ c ∈ s.calls[i]?, c.lastWriteUUID = uuid) ∧ out.appended = none ∧
    out.result.writeSuccess = true

instance (s : Clients) (i : Nat) (uuid : UUID) (out : TxOut) :
    Decidable (s.RecognisesAt i uuid out) :=
  inferInstanceAs (Decidable ((∃ c ∈ s.calls[i]?, c.lastWriteUUID = uuid) ∧
    out.appended = none ∧ out.result.writeSuccess = true))

/-- 成功を返した試行の答えは、書いたか認めた record の `KeyValue` である。 -/
theorem tx_success {db : Db} (h : db.Holds recs) {op : WriteOp} {lastWriteUUID uuid : UUID} {v : Nat}
    {out : TxOut} (htx : op.tx cfg lastWriteUUID uuid v db = .ok out) :
    (∀ w, out.appended = some w →
      w.record.writeUUID = uuid ∧ out.result.getResult cfg = (w.revision, op.answer cfg w, true)) ∧
    (out.appended = none → out.result.writeSuccess = true →
      ∃ l ∈ recs, l.record.writeUUID = lastWriteUUID ∧
        out.result.getResult cfg = (l.revision, op.answer cfg l, true)) := by
  have ht : op.tooLarge = false := by
    by_contra hl
    rw [tx_tooLarge (by simpa using hl)] at htx
    cases htx
  have hans := tx_answer cfg h ht lastWriteUUID uuid v
  rw [htx] at hans
  cases hans with
  | wrote record size result hw hn hres =>
    refine ⟨fun w hw => ?_, fun hnone => ?_⟩
    · cases hw
      exact ⟨rfl, hres⟩
    · cases hnone
  | recognised l result hl hr hres =>
    refine ⟨fun w hw => ?_, fun _ _ => ⟨l, (newest_mem hl).1, hr.uuid_eq.symm, hres⟩⟩
    cases hw
  | refused result hn hno hres =>
    refine ⟨fun w hw => ?_, fun _ hs => ?_⟩
    · cases hw
    · have hf : result.writeSuccess = false := congrArg (·.2.2) hres
      exact absurd (hf.symm.trans hs) (by decide)

/-- 呼び出し `i` が操作 `op` を持ち、record `w` が commit されていること。 -/
structure Clients.Kept (cfg : Config) (w : RevRecord) (i : Nat) (op : WriteOp) (s : Clients) :
    Prop where
  distinct : s.Distinct cfg
  committed : w ∈ s.store.committed
  call : ∃ c, s.calls[i]? = some c ∧ c.op = op

theorem Clients.kept_step {s s' : Clients} {a : ClientLabel} {w : RevRecord} {i : Nat}
    {op : WriteOp} (h : s.Kept cfg w i op) (hs : s.step cfg a = some s') : s'.Kept cfg w i op := by
  obtain ⟨recs, hinv⟩ := h.distinct.store
  obtain ⟨c, hc, hop⟩ := h.call
  obtain ⟨hpre, hcalls⟩ := Clients.step_keeps hinv hs
  obtain ⟨c', hc', hop'⟩ := hcalls i c hc
  exact ⟨Clients.distinct_step h.distinct hs, hpre.subset h.committed, c', hc', hop'.trans hop⟩

/-- record を書いて commit した試行の直後。 -/
theorem Clients.kept_attempt {s s' : Clients} {i v : Nat} {uuid : UUID} {c : WriteCall}
    {out : TxOut} {w : RevRecord} (hd : s.Distinct cfg) (hc : s.calls[i]? = some c)
    (htx : c.op.tx cfg c.lastWriteUUID uuid v s.store.db = .ok out) (hw : out.appended = some w)
    (hs : s.step cfg (.attempt i uuid v .unknownCommitted) = some s') : s'.Kept cfg w i c.op := by
  obtain ⟨recs, hinv⟩ := hd.store
  refine ⟨Clients.distinct_step hd hs, ?_, (Clients.step_keeps hinv hs).2 i c hc⟩
  cases Clients.step_effect hs with
  | attempted _ _ _ _ c t hi hrun hfresh ht =>
    rw [hc] at hi
    cases hi
    rw [(attempt_store hinv .unknownCommitted ht).2, htx]
    refine List.mem_append_right _ ?_
    simp [attemptAppends, appendedBy, hw]

/-- 結果の分からない commit を後の試行が UUID で認めたとき、呼び出しが返す revision、`KeyValue`、
成否は、その commit の試行が自分の future から返したはずのものに等しい。 -/
theorem recognised_answer_eq (cfg : Config) {pre post : List ClientLabel} {s₁ s₂ : Clients}
    {i v v' : Nat} {uuid uuid' : UUID} {out₁ out₂ : TxOut}
    (hpre : runSteps (Clients.step cfg) .init pre = some s₁)
    (hout₁ : s₁.attemptOut cfg i uuid v = some out₁) (hw : out₁.appended.isSome = true)
    (hpost : runSteps (Clients.step cfg) s₁ (.attempt i uuid v .unknownCommitted :: post) = some s₂)
    (hout₂ : s₂.attemptOut cfg i uuid' v' = some out₂) (hrec : s₂.RecognisesAt i uuid out₂) :
    out₂.result.getResult cfg = out₁.result.getResult cfg := by
  obtain ⟨w, hw⟩ := Option.isSome_iff_exists.mp hw
  obtain ⟨c₁, hc₁, htx₁⟩ := Clients.attemptOut_eq_some hout₁
  have hd₁ : s₁.Distinct cfg :=
    run_invariant (fun s a s' h hs => Clients.distinct_step h hs) (Clients.init_distinct cfg) hpre
  obtain ⟨recs₁, hinv₁⟩ := hd₁.store
  obtain ⟨hwu, hans₁⟩ := (tx_success hinv₁.tracks.holds htx₁).1 w hw
  -- commit の直後から、`w` は commit されていて、呼び出しの操作は変わらない
  obtain ⟨s, hs, hpost⟩ := runSteps_cons.mp hpost
  have hkept : s₂.Kept cfg w i c₁.op :=
    run_invariant (fun s a s' h hs => Clients.kept_step h hs)
      (Clients.kept_attempt hd₁ hc₁ htx₁ hw hs) hpost
  obtain ⟨hd₂, hmem, c, hc, hop⟩ := hkept
  obtain ⟨recs₂, hinv₂⟩ := hd₂.store
  obtain ⟨c₂, hc₂, htx₂⟩ := Clients.attemptOut_eq_some hout₂
  obtain ⟨⟨c', hc', hlast⟩, hnone, hsucc⟩ := hrec
  rw [hc₂] at hc hc'
  cases hc
  cases hc'
  obtain ⟨l, hl, hlu, hans₂⟩ := (tx_success hinv₂.tracks.holds htx₂).2 hnone hsucc
  have heq : l = w := hd₂.eq_of_uuid (hinv₂.tracks.sub l hl) hmem (by rw [hlu, hlast, hwu])
  rw [hans₂, hans₁, heq, hop]

/-- `Update` の結果が分からないまま、別の鍵への書き込みを挟んで再試行する。 -/
theorem recognised_answer_of_update : ∃ s₁ s₂ out₁ out₂,
    runSteps (Clients.step .default) .init [.start (.create [97] [1] 7) 1, .attempt 0 2 2 .committed,
      .start (.update [97] [5, 6] 2 8) 3] = some s₁ ∧
    s₁.attemptOut .default 1 4 3 = some out₁ ∧
    runSteps (Clients.step .default) s₁ [.attempt 1 4 3 .unknownCommitted,
      .start (.create [98] [2] 0) 5, .attempt 2 6 4 .committed] = some s₂ ∧
    s₂.attemptOut .default 1 7 5 = some out₂ ∧
    out₂.result.getResult .default = out₁.result.getResult .default := by
  have h : (runSteps (Clients.step .default) .init [.start (.create [97] [1] 7) 1,
      .attempt 0 2 2 .committed, .start (.update [97] [5, 6] 2 8) 3]).any (fun s₁ =>
    (s₁.attemptOut .default 1 4 3).any (fun out₁ => out₁.appended.isSome &&
      (runSteps (Clients.step .default) s₁ [.attempt 1 4 3 .unknownCommitted,
        .start (.create [98] [2] 0) 5, .attempt 2 6 4 .committed]).any (fun s₂ =>
      (s₂.attemptOut .default 1 7 5).any (fun out₂ =>
        decide (s₂.RecognisesAt 1 4 out₂))))) = true := by
    decide +kernel
  obtain ⟨s₁, hs₁, h⟩ := (Option.any_eq_true _ _).mp h
  obtain ⟨out₁, hout₁, h⟩ := (Option.any_eq_true _ _).mp h
  obtain ⟨hw, h⟩ := (Bool.and_eq_true _ _).mp h
  obtain ⟨s₂, hs₂, h⟩ := (Option.any_eq_true _ _).mp h
  obtain ⟨out₂, hout₂, h⟩ := exists_of_any_decide h
  exact ⟨s₁, s₂, out₁, out₂, hs₁, hout₁, hs₂, hout₂,
    recognised_answer_eq .default hs₁ hout₁ hw hs₂ hout₂ h⟩

end KubeFdb
