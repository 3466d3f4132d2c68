import KubeFdb.Robustness.EtcdRun
import KubeFdb.Robustness.Recorder

/-!
# 呼び出しが効いた順

記録された呼び出しは、始まりと終わりの間の一手で効く。書き込みは record の commit か、断りの答えを作った試行で、
一覧は最初の batch で効く。効いた順に request を参照モデルに渡すと、モデルの応答はどの答えにも当たる
（`Recorder.exists_ordered`）。
-/

namespace KubeFdb.Robustness

open Tuple

variable {V : Type} {toV : Bytes → V} {cfg : Config} {s s' : Recorder}

/-! ## 効いた時点 -/

/-- 呼び出し `who` が効いた手と、そのときのモデルの応答。 -/
structure Point (V : Type) where
  who : Nat
  time : Nat
  request : Request V
  response : Response V

/-- モデルが、効いた request に同じ応答を返す一手。 -/
def EtcdState.answer [DecidableEq V] (st : EtcdState V) (p : Point V) : Option (EtcdState V) :=
  if (st.step p.request).2 = p.response then some (st.step p.request).1 else none

/-- もう効いた呼び出し。 -/
def Recorded.effective (o : Recorded) : Bool :=
  match o.progress, o.returned with
  | .list _ _ _ _ snapshot, _ => snapshot.isSome
  | .write _, some (_, some _) => true
  | .write c, _ => decide (c.appended ≠ [])

/-- client の request に compaction はない。 -/
theorem request_ne_compact (toV : Bytes → V) (p : Progress) (revision : Int) :
    p.request toV ≠ .compact revision := by
  cases p with
  | list prefix_ revision range call snapshot => exact fun h => by cases h
  | write c =>
    show requestFor toV c.op ≠ _
    cases c.op with
    | create key value lease => exact fun h => by cases h
    | update key value revision lease => exact fun h => by cases h
    | delete key prevRev =>
      show delete key prevRev ≠ _
      unfold delete
      split <;> exact fun h => by cases h

/-- 効いた時点が、記録された呼び出しに合うこと。 -/
structure Point.Fits (toV : Bytes → V) (p : Point V) (o : Recorded) : Prop where
  request : p.request = o.progress.request toV
  since : o.call ≤ p.time
  effective : o.effective = true
  until_ : ∀ t out, o.returned = some (t, out) → p.time ≤ t
  agrees : ∀ t reply, o.returned = some (t, some reply) → Agrees toV p.response reply
  wrote : ∀ c, o.progress = .write c → ∀ r ∈ c.appended,
    WrittenBy c.op r ∧ Wrote c.op r.revision p.response
  listed : ∀ prefix_ revision range call t,
    o.progress = .list prefix_ revision range call (some t) →
      Listed toV prefix_ revision t.committed p.response

theorem Point.fits_write {p : Point V} {o : Recorded} {c : WriteCall} (hc : o.progress = .write c)
    (hreq : p.request = requestFor toV c.op) (hsince : o.call ≤ p.time)
    (he : o.effective = true) (huntil : ∀ t out, o.returned = some (t, out) → p.time ≤ t)
    (hagrees : ∀ t reply, o.returned = some (t, some reply) → Agrees toV p.response reply)
    (hwrote : ∀ r ∈ c.appended, WrittenBy c.op r ∧ Wrote c.op r.revision p.response) :
    p.Fits toV o where
  request := by rw [hc]; exact hreq
  since := hsince
  effective := he
  until_ := huntil
  agrees := hagrees
  wrote := fun c' hc' => by rw [hc] at hc'; cases hc'; exact hwrote
  listed := fun _ _ _ _ _ hp => by rw [hc] at hp; cases hp

section

variable [DecidableEq V]

/-- `lin` が、記録された呼び出しの効いた順であること。`commits` は record の commit の時刻である。 -/
structure Recorder.Ordered (toV : Bytes → V) (s : Recorder) (lin : List (Point V))
    (st : EtcdState V) (commits : List Nat) : Prop where
  answered : runSteps EtcdState.answer freshEtcdState lin = some st
  represents : Represents toV s.store.committed st
  uncompacted : st.compactRevision = -1
  increasing : lin.Pairwise (fun p q => p.time < q.time)
  past : ∀ p ∈ lin, p.time < s.now
  nodup : (lin.map Point.who).Nodup
  fits : ∀ p ∈ lin, ∃ o, s.ops[p.who]? = some o ∧ p.Fits toV o
  pointed : ∀ (i : Nat) (o : Recorded), s.ops[i]? = some o → o.effective = true →
    ∃ p ∈ lin, p.who = i
  commitsLength : commits.length = s.store.committed.length
  commitsIncreasing : commits.Pairwise (· < ·)
  commitsPast : ∀ t ∈ commits, t < s.now
  /-- record の commit は、それを書いた呼び出しが効いた手である。 -/
  committed : ∀ x ∈ s.store.committed.zip commits, ∃ p ∈ lin, p.time = x.2 ∧
    ∃ o, s.ops[p.who]? = some o ∧ x.1 ∈ o.progress.appended

theorem Recorder.init_ordered (toV : Bytes → V) :
    Recorder.init.Ordered toV [] freshEtcdState [] where
  answered := rfl
  represents := fresh_represents toV
  uncompacted := rfl
  increasing := List.Pairwise.nil
  past := fun _ hp => absurd hp List.not_mem_nil
  nodup := List.nodup_nil
  fits := fun _ hp => absurd hp List.not_mem_nil
  pointed := fun i o ho => by simp [Recorder.init] at ho
  commitsLength := rfl
  commitsIncreasing := List.Pairwise.nil
  commitsPast := fun _ ht => absurd ht List.not_mem_nil
  committed := fun _ hx => absurd hx List.not_mem_nil

variable {lin : List (Point V)} {st : EtcdState V} {commits : List Nat}

/-- 呼び出しを始める手。 -/
theorem Recorder.Ordered.start (h : s.Ordered toV lin st commits) {o : Recorded}
    (ho : o.effective = false) {used : List UUID} :
    Recorder.Ordered toV ⟨s.store, s.ops ++ [o], used, s.now + 1⟩ lin st commits := by
  have hkeep : ∀ {i o'}, s.ops[i]? = some o' → (s.ops ++ [o])[i]? = some o' := fun hi =>
    (List.getElem?_append_left (List.getElem?_eq_some_iff.mp hi).1).trans hi
  refine ⟨h.answered, h.represents, h.uncompacted, h.increasing,
    fun p hp => (h.past p hp).trans (Nat.lt_succ_self _),
    h.nodup, ?_, ?_, h.commitsLength, h.commitsIncreasing,
    fun t ht => (h.commitsPast t ht).trans (Nat.lt_succ_self _), ?_⟩
  · intro p hp
    obtain ⟨o', ho', hf⟩ := h.fits p hp
    exact ⟨o', hkeep ho', hf⟩
  · intro i o' hi he
    by_cases hlt : i < s.ops.length
    · rw [List.getElem?_append_left hlt] at hi
      exact h.pointed i o' hi he
    · rw [List.getElem?_append_right (not_lt.mp hlt)] at hi
      rw [List.mem_singleton.mp (List.mem_of_getElem? hi), ho] at he
      cases he
  · intro x hx
    obtain ⟨p, hp, ht, o', ho', hr⟩ := h.committed x hx
    exact ⟨p, hp, ht, o', hkeep ho', hr⟩

/-- どの呼び出しの効き方も変えない手。 -/
theorem Recorder.Ordered.keep (h : s.Ordered toV lin st commits) {i : Nat} {o o' : Recorded}
    (hi : s.ops[i]? = some o) (he : o'.effective = o.effective)
    (ha : o'.progress.appended = o.progress.appended)
    (hf : ∀ p ∈ lin, p.who = i → p.Fits toV o → p.Fits toV o') {store : Store} {used : List UUID}
    (hc : store.committed = s.store.committed) :
    Recorder.Ordered toV ⟨store, s.ops.set i o', used, s.now + 1⟩ lin st commits := by
  have hlt := (List.getElem?_eq_some_iff.mp hi).1
  refine ⟨h.answered, by rw [hc]; exact h.represents, h.uncompacted, h.increasing,
    fun p hp => (h.past p hp).trans (Nat.lt_succ_self _), h.nodup, ?_, ?_,
    by rw [hc]; exact h.commitsLength, h.commitsIncreasing, fun t ht => (h.commitsPast t ht).trans (Nat.lt_succ_self _), ?_⟩
  · intro p hp
    obtain ⟨o₁, ho₁, hfit⟩ := h.fits p hp
    by_cases hw : p.who = i
    · rw [hw, hi] at ho₁
      cases ho₁
      exact ⟨o', by rw [hw]; exact List.getElem?_set_self hlt, hf p hp hw hfit⟩
    · exact ⟨o₁, (List.getElem?_set_ne (Ne.symm hw)).trans ho₁, hfit⟩
  · intro j o₁ hj he₁
    by_cases hij : i = j
    · subst hij
      rw [List.getElem?_set_self hlt] at hj
      cases hj
      exact h.pointed i o hi (he ▸ he₁)
    · rw [List.getElem?_set_ne hij] at hj
      exact h.pointed j o₁ hj he₁
  · rw [hc]
    intro x hx
    obtain ⟨p, hp, ht, o₁, ho₁, hr⟩ := h.committed x hx
    refine ⟨p, hp, ht, ?_⟩
    by_cases hw : p.who = i
    · rw [hw, hi] at ho₁
      cases ho₁
      exact ⟨o', by rw [hw]; exact List.getElem?_set_self hlt, by rw [ha]; exact hr⟩
    · exact ⟨o₁, (List.getElem?_set_ne (Ne.symm hw)).trans ho₁, hr⟩

/-- まだ効いていない呼び出しの時点はない。 -/
theorem Recorder.Ordered.who_ne (h : s.Ordered toV lin st commits) {i : Nat} {o : Recorded}
    (hi : s.ops[i]? = some o) (he : o.effective = false) : ∀ p ∈ lin, p.who ≠ i := by
  rintro p hp rfl
  obtain ⟨o', ho', hf⟩ := h.fits p hp
  rw [hi] at ho'
  cases ho'
  exact absurd (he.symm.trans hf.effective) (by decide)

/-- 呼び出し `i` が効いた手。 -/
theorem Recorder.Ordered.point (h : s.Ordered toV lin st commits) {i : Nat} {o o' : Recorded}
    (hi : s.ops[i]? = some o) (he : o.effective = false) {store : Store} {used : List UUID}
    {new : List RevRecord} (hc : store.committed = s.store.committed ++ new)
    (hnew : new = [] ∨ ∃ r ∈ o'.progress.appended, new = [r])
    (hrep : Represents toV store.committed (st.step (o'.progress.request toV)).1)
    (hfit : (⟨i, s.now, o'.progress.request toV, (st.step (o'.progress.request toV)).2⟩ :
      Point V).Fits toV o') :
    ∃ lin' st' commits', Recorder.Ordered toV ⟨store, s.ops.set i o', used, s.now + 1⟩ lin' st'
      commits' := by
  have hlt := (List.getElem?_eq_some_iff.mp hi).1
  have hwho := h.who_ne hi he
  have hkeep : ∀ p ∈ lin, ∀ {o₁}, s.ops[p.who]? = some o₁ →
      (s.ops.set i o')[p.who]? = some o₁ := fun p hp o₁ ho₁ =>
    (List.getElem?_set_ne (Ne.symm (hwho p hp))).trans ho₁
  refine ⟨lin ++ [⟨i, s.now, o'.progress.request toV, (st.step (o'.progress.request toV)).2⟩],
    (st.step (o'.progress.request toV)).1, commits ++ new.map (fun _ => s.now),
    ?_, hrep, (step_compactRevision st (request_ne_compact toV o'.progress)).trans h.uncompacted, ?_,
    ?_, ?_, ?_, ?_, ?_, ?_, ?_, ?_⟩
  · rw [runSteps_concat h.answered, EtcdState.answer, if_pos rfl]
  · refine List.pairwise_append.mpr ⟨h.increasing, List.pairwise_singleton _ _, fun p hp q hq => ?_⟩
    rw [List.mem_singleton.mp hq]
    exact h.past p hp
  · intro p hp
    rcases List.mem_append.mp hp with hp | hp
    · exact (h.past p hp).trans (Nat.lt_succ_self _)
    · rw [List.mem_singleton.mp hp]
      exact Nat.lt_succ_self _
  · rw [List.map_append, List.map_singleton, ← List.concat_eq_append]
    refine List.Nodup.concat (fun hm => ?_) h.nodup
    obtain ⟨p, hp, hpw⟩ := List.mem_map.mp hm
    exact hwho p hp hpw
  · intro p hp
    rcases List.mem_append.mp hp with hp | hp
    · obtain ⟨o₁, ho₁, hf⟩ := h.fits p hp
      exact ⟨o₁, hkeep p hp ho₁, hf⟩
    · rw [List.mem_singleton.mp hp]
      exact ⟨o', List.getElem?_set_self hlt, hfit⟩
  · intro j o₁ hj he₁
    by_cases hij : i = j
    · exact ⟨_, List.mem_append_right _ List.mem_cons_self, hij⟩
    · rw [List.getElem?_set_ne hij] at hj
      obtain ⟨p, hp, hpw⟩ := h.pointed j o₁ hj he₁
      exact ⟨p, List.mem_append_left _ hp, hpw⟩
  · rw [hc, List.length_append, List.length_append, List.length_map, h.commitsLength]
  · refine List.pairwise_append.mpr ⟨h.commitsIncreasing, ?_, fun t ht t' ht' => ?_⟩
    · rcases hnew with rfl | ⟨r, -, rfl⟩
      · exact List.Pairwise.nil
      · exact List.pairwise_singleton _ _
    · obtain ⟨r, -, rfl⟩ := List.mem_map.mp ht'
      exact h.commitsPast t ht
  · intro t ht
    rcases List.mem_append.mp ht with ht | ht
    · exact (h.commitsPast t ht).trans (Nat.lt_succ_self _)
    · obtain ⟨r, -, rfl⟩ := List.mem_map.mp ht
      exact Nat.lt_succ_self _
  · rw [hc, List.zip_append h.commitsLength.symm]
    intro x hx
    rcases List.mem_append.mp hx with hx | hx
    · obtain ⟨p, hp, ht, o₁, ho₁, hr⟩ := h.committed x hx
      exact ⟨p, List.mem_append_left _ hp, ht, o₁, hkeep p hp ho₁, hr⟩
    · rcases hnew with rfl | ⟨r, hr, rfl⟩
      · cases hx
      · rw [List.mem_singleton.mp hx]
        exact ⟨_, List.mem_append_right _ List.mem_cons_self, rfl, o',
          List.getElem?_set_self hlt, hr⟩

/-! ## 書き込みの試行 -/

theorem effective_write {o : Recorded} {c : WriteCall} (hc : o.progress = .write c)
    (hr : ∀ t reply, o.returned ≠ some (t, some reply)) :
    o.effective = decide (c.appended ≠ []) := by
  unfold Recorded.effective
  rw [hc]
  cases hret : o.returned with
  | none => rfl
  | some x =>
    obtain ⟨t, out⟩ := x
    cases out with
    | some reply => exact absurd hret (hr t reply)
    | none => rfl

theorem effective_running {o : Recorded} {c : WriteCall} (hc : o.progress = .write c)
    (hr : o.returned = none) : o.effective = decide (c.appended ≠ []) :=
  effective_write hc fun t reply h => by
    rw [hr] at h
    cases h

theorem effective_of_response {o : Recorded} {c : WriteCall} (hc : o.progress = .write c)
    {t : Nat} {reply : Reply} (hr : o.returned = some (t, some reply)) :
    o.effective = true := by
  unfold Recorded.effective
  rw [hc, hr]

/-- 試行が返した答え。 -/
theorem attempted_reply {o : Recorded} {c : WriteCall} {uuid : UUID} {fate : Fate} {out : TxOut}
    {now t : Nat} {reply : Reply}
    (h : (o.attempted cfg c uuid fate (.ok out) now).returned = some (t, some reply)) :
    fate = .committed ∧ reply = replyFor (out.result.getResult cfg) c.op := by
  obtain ⟨x, hx, heq⟩ := Option.map_eq_some_iff.mp h
  obtain rfl : x = some reply := congrArg Prod.snd heq
  simp only [attemptReply] at hx
  split at hx
  · next hfate =>
    cases hx
    exact ⟨hfate, rfl⟩
  · cases hx

theorem createTx_success {key : Key} {value : Bytes} {lease : Int} {lastWriteUUID uuid : UUID}
    {v : Nat} {db : Db} {out : TxOut}
    (h : createTx cfg key value lease lastWriteUUID uuid v db = .ok out) :
    out.result.writeSuccess = true := by
  unfold createTx at h
  dsimp only at h
  split at h
  · cases h
    rfl
  · split at h
    · cases h
      rfl
    · split at h
      · cases h
      · cases h
        rfl

/-- 断りの答えを持つ transaction は、`Create` のものではない。 -/
theorem refusalFor_eq_replyFor {op : WriteOp} {lastWriteUUID uuid : UUID} {v : Nat} {db : Db}
    {out : TxOut} (hl : op.tooLarge = false) (h : op.tx cfg lastWriteUUID uuid v db = .ok out)
    (hfailed : out.result.writeSuccess = false) (result : Int × Option KeyValue × Bool) :
    refusalFor result op = replyFor result op := by
  cases op with
  | create key value lease =>
    rw [WriteOp.tx, if_neg (by rw [hl]; decide)] at h
    exact absurd (hfailed.symm.trans (createTx_success h)) Bool.false_ne_true
  | update key value revision lease => rfl
  | delete key revision => rfl

section

variable {i : Nat} {o o' : Recorded} {c c' : WriteCall} {store : Store} {used : List UUID}

/-- 何も足さない試行。答えを返すのは、前に書いた record を認めたときである。 -/
theorem Recorder.Ordered.attempt_keep (h : s.Ordered toV lin st commits)
    (hi : s.ops[i]? = some o) (hc : o.progress = .write c) (hret : o.returned = none)
    (hc' : o'.progress = .write c') (hop : c'.op = c.op) (ha : c'.appended = c.appended)
    (hcall : o'.call = o.call) (htime : ∀ t out, o'.returned = some (t, out) → t = s.now)
    (hagrees : ∀ t reply, o'.returned = some (t, some reply) → c.appended ≠ [] ∧
      ∀ response : Response V, (∀ r ∈ c.appended, WrittenBy c.op r ∧ Wrote c.op r.revision response) →
        Agrees toV response reply)
    (hcommitted : store.committed = s.store.committed) :
    Recorder.Ordered toV ⟨store, s.ops.set i o', used, s.now + 1⟩ lin st commits := by
  have he := effective_running hc hret
  have he' : o'.effective = o.effective := by
    by_cases hr : ∃ t reply, o'.returned = some (t, some reply)
    · obtain ⟨t, reply, hr⟩ := hr
      rw [effective_of_response hc' hr, he, decide_eq_true (hagrees t reply hr).1]
    · rw [effective_write hc' fun t reply hr' => hr ⟨t, reply, hr'⟩, he, ha]
  refine h.keep hi he' (by rw [hc, hc']; exact ha) (fun p hp hw hf => ?_) hcommitted
  have hwrote := hf.wrote c hc
  refine Point.fits_write hc' ?_ (hcall ▸ hf.since) (he'.trans hf.effective) (fun t out hr => ?_)
    (fun t reply hr => (hagrees t reply hr).2 p.response hwrote) (by rw [hop, ha]; exact hwrote)
  · rw [hf.request, hc, hop]
    rfl
  · rw [htime t out hr]
    exact (h.past p hp).le

/-- 書いた試行か、断られた試行。 -/
theorem Recorder.Ordered.attempt_point (h : s.Ordered toV lin st commits)
    (hi : s.ops[i]? = some o) (hc : o.progress = .write c) (hret : o.returned = none)
    (hnil : c.appended = []) (hpast : o.call ≤ s.now) (hc' : o'.progress = .write c')
    (hop : c'.op = c.op) (hcall : o'.call = o.call)
    (htime : ∀ t out, o'.returned = some (t, out) → t = s.now) (he : o'.effective = true)
    (hagrees : ∀ t reply, o'.returned = some (t, some reply) →
      Agrees toV (st.step (requestFor toV c.op)).2 reply)
    (hnew : c'.appended = [] ∨ ∃ r, c'.appended = [r])
    (hwrote : ∀ r ∈ c'.appended,
      WrittenBy c.op r ∧ Wrote c.op r.revision (st.step (requestFor toV c.op)).2)
    (hcommitted : store.committed = s.store.committed ++ c'.appended)
    (hrep : Represents toV store.committed (st.step (requestFor toV c.op)).1) :
    ∃ lin' st' commits', Recorder.Ordered toV ⟨store, s.ops.set i o', used, s.now + 1⟩ lin' st'
      commits' := by
  have hreq : o'.progress.request toV = requestFor toV c.op := by
    rw [hc', ← hop]
    rfl
  have hnone : o.effective = false := by
    rw [effective_running hc hret, hnil]
    rfl
  refine h.point hi hnone hcommitted ?_ (by rw [hreq]; exact hrep) ?_
  · rcases hnew with hn | ⟨r, hn⟩
    · exact Or.inl hn
    · exact Or.inr ⟨r, by rw [hc', Progress.appended, hn]; exact List.mem_cons_self, hn⟩
  · rw [hreq]
    exact Point.fits_write hc' (by rw [hop]) (hcall ▸ hpast) he
      (fun t out hr => (htime t out hr).ge) hagrees (by rw [hop]; exact hwrote)

end

/-! ### 試行の答え -/

section

variable {i : Nat} {o : Recorded} {c : WriteCall} {store : Store} {used : List UUID} {uuid : UUID}
  {fate : Fate} {result : WriteResult} {db : Db}

theorem attempted_time {out : Except Err TxOut} {now t : Nat} {reply : Option Reply}
    (h : (o.attempted cfg c uuid fate out now).returned = some (t, reply)) : t = now := by
  obtain ⟨x, -, hx⟩ := Option.map_eq_some_iff.mp h
  exact (congrArg Prod.fst hx).symm

theorem appended_readOnly :
    (c.after uuid fate (.ok (.readOnly result db))).appended = c.appended := by
  cases fate <;> simp [WriteCall.after, TxOut.readOnly]

/-- record を書いて commit した試行は、そこで効く。 -/
theorem Recorder.Ordered.attempt_wrote (h : s.Ordered toV lin st commits)
    (hi : s.ops[i]? = some o) (hc : o.progress = .write c) (hret : o.returned = none)
    (hnil : c.appended = []) (hpast : o.call ≤ s.now) {record : Record} {size : Int} {r : RevRecord}
    (hw : c.op.Writes (newest RevRecord.key s.store.committed c.op.key) record size)
    (hr : r.record = { record with writeUUID := uuid })
    (hrev : r.revision = s.store.committed.length + 2)
    (hres : result.getResult cfg = (r.revision, c.op.answer cfg r, true))
    (hfate : fate ≠ .notCommitted) (hstore : store.committed = s.store.committed ++ [r]) :
    ∃ lin' st' commits', Recorder.Ordered toV ⟨store, s.ops.set i (o.attempted cfg c uuid fate
      (.ok ⟨result, some r, db⟩) s.now), used, s.now + 1⟩ lin' st' commits' := by
  have hby : WrittenBy c.op r := ⟨_, record, size, uuid, hw, hr⟩
  obtain ⟨hrep, hwrote⟩ := step_wrote h.represents hw hr hrev
  have happ : (c.after uuid fate (.ok ⟨result, some r, db⟩)).appended = [r] := by
    cases fate with
    | notCommitted => exact absurd rfl hfate
    | committed => exact congrArg (· ++ [_]) hnil
    | unknownCommitted => exact congrArg (· ++ [_]) hnil
  refine h.attempt_point hi hc hret hnil hpast rfl WriteCall.after_op rfl
    (fun _ _ => attempted_time) ?_ (fun t reply ht => ?_) (Or.inr ⟨r, happ⟩) ?_ ?_ ?_
  · cases fate with
    | notCommitted => exact absurd rfl hfate
    | committed => exact effective_of_response rfl rfl
    | unknownCommitted =>
      rw [effective_running rfl rfl, happ]
      rfl
  · rw [(attempted_reply ht).2, hres]
    exact hwrote.agrees toV cfg hby.key_eq
  · rw [happ]
    exact List.forall_mem_singleton.mpr ⟨hby, hwrote⟩
  · rw [happ]
    exact hstore
  · rw [hstore]
    exact hrep

/-- 前の試行の record を認めた試行は、もう効いている。 -/
theorem Recorder.Ordered.attempt_recognised (h : s.Ordered toV lin st commits)
    (hi : s.ops[i]? = some o) (hc : o.progress = .write c) (hret : o.returned = none)
    {r : RevRecord} (hr : r ∈ c.appended)
    (hres : result.getResult cfg = (r.revision, c.op.answer cfg r, true))
    (hstore : store.committed = s.store.committed) :
    Recorder.Ordered toV ⟨store, s.ops.set i (o.attempted cfg c uuid fate
      (.ok (.readOnly result db)) s.now), used, s.now + 1⟩ lin st commits := by
  refine h.attempt_keep hi hc hret rfl WriteCall.after_op appended_readOnly rfl
    (fun _ _ => attempted_time) (fun t reply ht => ?_) hstore
  refine ⟨List.ne_nil_of_mem hr, fun response hall => ?_⟩
  obtain ⟨hby, hwrote⟩ := hall r hr
  rw [(attempted_reply ht).2, TxOut.readOnly, hres]
  exact hwrote.agrees toV cfg hby.key_eq

/-- 断られた試行は、commit すれば、そこで効く。`Create` は断りを error で返すので、ここには来ない。 -/
theorem Recorder.Ordered.attempt_refused (h : s.Ordered toV lin st commits)
    (hi : s.ops[i]? = some o) (hc : o.progress = .write c) (hret : o.returned = none)
    (hnil : c.appended = []) (hpast : o.call ≤ s.now)
    (hsame : (st.step (requestFor toV c.op)).1 = st)
    (hagrees : Agrees toV (st.step (requestFor toV c.op)).2 (refusalFor (result.getResult cfg) c.op))
    (hreply : refusalFor (result.getResult cfg) c.op = replyFor (result.getResult cfg) c.op)
    (hstore : store.committed = s.store.committed) :
    ∃ lin' st' commits', Recorder.Ordered toV ⟨store, s.ops.set i (o.attempted cfg c uuid fate
      (.ok (.readOnly result db)) s.now), used, s.now + 1⟩ lin' st' commits' := by
  have happ : (c.after uuid fate (.ok (.readOnly result db))).appended = [] :=
    appended_readOnly.trans hnil
  by_cases hfate : fate = .committed
  · refine h.attempt_point hi hc hret hnil hpast rfl WriteCall.after_op rfl
      (fun _ _ => attempted_time) (effective_of_response rfl (by rw [hfate]; rfl))
      (fun t reply ht => ?_) (Or.inl happ) ?_ ?_ ?_
    · rw [(attempted_reply ht).2, TxOut.readOnly, ← hreply]
      exact hagrees
    · rw [happ]
      exact fun r hr => absurd hr List.not_mem_nil
    · rw [happ, hstore, List.append_nil]
    · rw [hstore, hsame]
      exact h.represents
  · exact ⟨lin, st, commits, h.attempt_keep hi hc hret rfl WriteCall.after_op appended_readOnly rfl
      (fun _ _ => attempted_time) (fun t reply ht => absurd (attempted_reply ht).1 hfate) hstore⟩

/-- 鍵がもうある作成の error は、そこで効く。 -/
theorem Recorder.Ordered.attempt_keyExists (h : s.Ordered toV lin st commits)
    (hi : s.ops[i]? = some o) (hc : o.progress = .write c) (hret : o.returned = none)
    (hnil : c.appended = []) (hpast : o.call ≤ s.now)
    (hsame : (st.step (requestFor toV c.op)).1 = st)
    (hagrees : Agrees toV (st.step (requestFor toV c.op)).2 .keyExists)
    (hstore : store.committed = s.store.committed) :
    ∃ lin' st' commits', Recorder.Ordered toV ⟨store, s.ops.set i (o.attempted cfg c uuid fate
      (.error .keyExists) s.now), used, s.now + 1⟩ lin' st' commits' := by
  have happ : (c.after uuid fate (.error .keyExists)).appended = [] := hnil
  refine h.attempt_point hi hc hret hnil hpast rfl WriteCall.after_op rfl
    (fun _ _ => attempted_time) (effective_of_response rfl rfl) (fun t reply ht => ?_)
    (Or.inl happ) ?_ ?_ ?_
  · cases ht
    exact hagrees
  · rw [happ]
    exact fun r hr => absurd hr List.not_mem_nil
  · rw [happ, hstore, List.append_nil]
  · rw [hstore, hsame]
    exact h.represents

end

/-- 書き込みの試行。 -/
theorem Recorder.Ordered.attempt (hseq : cfg.useSequentialId = true) (hinv : s.Inv cfg)
    (hwrites : s.WriteInv) (h : s.Ordered toV lin st commits) {i v : Nat} {uuid : UUID} {fate : Fate}
    {o : Recorded} {c : WriteCall} {t : Store} (hok : s.FindsOwn (.attempt i uuid v fate))
    (hi : s.ops[i]? = some o) (hc : o.progress = .write c) (hrun : c.status = .running)
    (ht : s.store.step cfg (.write c.op c.lastWriteUUID uuid v) = some t) {used : List UUID} :
    ∃ lin' st' commits', Recorder.Ordered toV
      ⟨if fate = .notCommitted then s.store else t, s.ops.set i (o.attempted cfg c uuid fate
        (c.op.tx cfg c.lastWriteUUID uuid v s.store.db) s.now), used, s.now + 1⟩ lin' st'
      commits' := by
  have hstore := hinv.written.inv.1
  have hmem := List.mem_of_getElem? hi
  have hpast := hinv.called o hmem
  obtain ⟨hsq, hlatest⟩ := written_sequential hseq hinv.written
  obtain ⟨hcall, hrev, hret⟩ := hwrites.writes o hmem c hc
  have hret := hret hrun
  have hown := hok.newest_own hinv hwrites hi hc
  have hcommitted := (attempt_store hstore fate ht).2
  -- record を足さない試行は、履歴を変えない
  have hquiet : appendedBy (c.op.tx cfg c.lastWriteUUID uuid v s.store.db) = [] →
      (if fate = .notCommitted then s.store else t).committed = s.store.committed := by
    intro hnone
    rw [hcommitted, attemptAppends, hnone, ite_self, List.append_nil]
  cases hl : c.op.tooLarge with
  | true =>
    rw [tx_tooLarge hl] at hquiet ⊢
    exact ⟨lin, st, commits, h.attempt_keep hi hc hret rfl WriteCall.after_op rfl rfl
      (fun _ _ => attempted_time) (fun t' reply hr => by cases hr) (hquiet rfl)⟩
  | false =>
    have hans := tx_answer cfg hstore.tracks.holds hl c.lastWriteUUID uuid v
    generalize htx : c.op.tx cfg c.lastWriteUUID uuid v s.store.db = out
      at hans hcommitted hquiet ⊢
    cases hans with
    | wrote record size result hw hn hres =>
      by_cases hfate : fate = .notCommitted
      · rw [hfate]
        exact ⟨lin, st, commits, h.attempt_keep hi hc hret rfl rfl rfl rfl
          (fun _ _ => attempted_time) (fun t' reply hr => by cases hr) rfl⟩
      · refine h.attempt_wrote hi hc hret (hcall.appended_eq_nil hown hn) hpast hw
          (append_record cfg v uuid record size s.store.db) ?_ hres hfate ?_
        · rw [append_revision_of_sequential hseq hstore.bounded (Store.step_write ht).1 uuid record
            size, hlatest]
          omega
        · rw [hcommitted, attemptAppends, if_neg hfate]
          rfl
    | recognised l result hlast hr hres =>
      exact ⟨lin, st, commits, h.attempt_recognised hi hc hret
        (hcall.own l (newest_mem hlast).1 hr.uuid_eq.symm) hres (hquiet rfl)⟩
    | refused result hn hno hres =>
      obtain ⟨hsame, hagrees⟩ := step_refused cfg h.represents (sequential_wf hsq) hrev hno
      exact h.attempt_refused hi hc hret (hcall.appended_eq_nil hown hn) hpast hsame
        (by rw [hres, hlatest]; exact hagrees)
        (refusalFor_eq_replyFor hl htx (congrArg (·.2.2) hres) _) (hquiet rfl)
    | keyExists key value lease hcreate hn hno =>
      obtain ⟨hsame, hagrees⟩ := step_refused cfg h.represents (sequential_wf hsq) hrev hno
      exact h.attempt_keyExists hi hc hret (hcall.appended_eq_nil hown hn) hpast hsame
        (by rw [hcreate] at hagrees ⊢; exact hagrees) (hquiet rfl)

/-! ## 一覧の batch -/

/-- batch で終わった一覧の時刻と答え。 -/
theorem scanned_returned {o : Recorded} {prefix_ : Key} {revision : Int} {range : Bytes × Bytes}
    {call : ListCall ListCollector} {snapshot : Option Store} {now t : Nat} {out : Option Reply}
    (h : (o.scanned cfg prefix_ revision range call snapshot now).returned = some (t, out)) :
    t = now ∧ listReply cfg revision call = some out := by
  obtain ⟨x, hx, heq⟩ := Option.map_eq_some_iff.mp h
  cases heq
  exact ⟨rfl, hx⟩

/-- 一覧の batch。最初の batch で効く。 -/
theorem Recorder.Ordered.batch (hseq : cfg.useSequentialId = true) (hinv : s.Inv cfg)
    (h : s.Ordered toV lin st commits) {i n : Nat} {o : Recorded} {prefix_ : Key} {revision : Int}
    {range : Bytes × Bytes} {call : ListCall ListCollector} {snapshot : Option Store}
    (hi : s.ops[i]? = some o) (hp : o.progress = .list prefix_ revision range call snapshot)
    (hrun : call.status = .running) {used : List UUID} :
    ∃ lin' st' commits', Recorder.Ordered toV ⟨s.store, s.ops.set i (o.scanned cfg prefix_ revision
      range (call.batch (RecordCollector.processor listProcessor cfg) (indexRange range) n s.store.db).1
      (snapshot.or (some s.store)) s.now), used, s.now + 1⟩ lin' st' commits' := by
  have hmem := List.mem_of_getElem? hi
  have hscan := (hinv.lists o hmem prefix_ revision range call snapshot hp).1.batch hinv.written hrun n
  generalize (call.batch (RecordCollector.processor listProcessor cfg) (indexRange range) n
    s.store.db).1 = call' at hscan ⊢
  cases snapshot with
  | none =>
    have hlisted := step_listed h.represents (by rw [h.uncompacted]; decide)
      hinv.written.inv.1.tracks.sorted prefix_ revision
    refine h.point hi (by rw [Recorded.effective, hp]; rfl) (List.append_nil _).symm (Or.inl rfl)
      ?_ ⟨rfl, hinv.called o hmem, rfl, fun t out hr => (scanned_returned hr).1.ge, ?_, ?_, ?_⟩
    · show Represents toV s.store.committed (st.step (.range (listOptions prefix_) revision)).1
      rw [step_range_state]
      exact h.represents
    · intro t reply hr
      obtain ⟨t', ht', hall⟩ := hscan.reply hseq (scanned_returned hr).2
      cases ht'
      exact hall toV _ hlisted
    · exact fun c hc => by cases hc
    · intro p revision' range' call'' t hp'
      cases hp'
      exact hlisted
  | some t =>
    refine ⟨lin, st, commits, h.keep hi (by rw [Recorded.effective, Recorded.effective, hp]; rfl)
      (by rw [hp]; rfl) (fun p hpm hw hf => ?_) rfl⟩
    have hlisted := hf.listed prefix_ revision range call t hp
    refine ⟨by rw [hf.request, hp]; rfl, hf.since, rfl, fun t' out hr => ?_, ?_, ?_, ?_⟩
    · rw [(scanned_returned hr).1]
      exact (h.past p hpm).le
    · intro t' reply hr
      obtain ⟨t'', ht'', hall⟩ := hscan.reply hseq (scanned_returned hr).2
      cases ht''
      exact hall toV _ hlisted
    · exact fun c hc => by cases hc
    · intro p' revision' range' call'' t' hp'
      cases hp'
      exact hlisted

/-! ## run -/

/-- 条件を満たす手は、効いた順を保つか、一つ延ばす。 -/
theorem Recorder.ordered_step (hseq : cfg.useSequentialId = true) {a : RecorderLabel}
    (hinv : s.Inv cfg) (hwrites : s.WriteInv) (h : s.Ordered toV lin st commits)
    (hok : s.FindsOwn a) (hs : s.step cfg a = some s') :
    ∃ lin' st' commits', s'.Ordered toV lin' st' commits' := by
  cases Recorder.step_effect hs with
  | store a t ha ht =>
    have hsame := Store.committed_of_not_write ht ha
    refine ⟨lin, st, commits, h.answered, by rw [hsame]; exact h.represents, h.uncompacted,
      h.increasing,
      fun p hp => (h.past p hp).trans (Nat.lt_succ_self _), h.nodup, h.fits, h.pointed,
      by rw [hsame]; exact h.commitsLength, h.commitsIncreasing,
      fun t ht => (h.commitsPast t ht).trans (Nat.lt_succ_self _), ?_⟩
    rw [hsame]
    exact h.committed
  | write clientId op uuid hfresh => exact ⟨lin, st, commits, h.start rfl⟩
  | attempt i uuid v fate o c t hi hc hrun hfresh ht =>
    exact h.attempt hseq hinv hwrites hok hi hc hrun ht
  | list clientId prefix_ revision range hr => exact ⟨lin, st, commits, h.start rfl⟩
  | batch i n o prefix_ revision range call snapshot hi hp hrun => exact h.batch hseq hinv hi hp hrun

/-- **再試行が自分の record を見つけるどの run にも、効いた順がある。** -/
theorem Recorder.exists_ordered (toV : Bytes → V) (hseq : cfg.useSequentialId = true)
    {as : List RecorderLabel} (hr : runSteps (Recorder.step cfg) .init as = some s)
    (hlists : ∀ a ∈ as, a.nonnegative = true) (hupdates : ∀ a ∈ as, a.revised = true)
    (hown : StepsMeet (Recorder.step cfg) Recorder.FindsOwn .init as) :
    s.Inv cfg ∧ s.WriteInv ∧ ∃ lin st commits, s.Ordered toV lin st commits := by
  refine run_invariant_of
    (fun s a => (a.nonnegative = true ∧ a.revised = true) ∧ Recorder.FindsOwn s a)
    (P := fun s => s.Inv cfg ∧ s.WriteInv ∧ ∃ lin st commits, s.Ordered toV lin st commits)
    (fun s a s' => ?_)
    ⟨Recorder.init_inv cfg, Recorder.init_writeInv, [], _, [], Recorder.init_ordered toV⟩
    ((stepsMeet_of_forall fun a ha => ⟨hlists a ha, hupdates a ha⟩).and hown) hr
  rintro ⟨hinv, hwrites, lin, st, commits, h⟩ ⟨⟨hlist, hupdate⟩, hfinds⟩ hs
  exact ⟨Recorder.inv_step hseq hinv hlist hs,
    Recorder.writeInv_step hinv hwrites hupdate hfinds hs,
    Recorder.ordered_step hseq hinv hwrites h hfinds hs⟩

end

end KubeFdb.Robustness
