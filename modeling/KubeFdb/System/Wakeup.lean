import KubeFdb.System.PollLoop
import KubeFdb.System.WriteCalls

/-!
# poll の loop の目覚め

loop は、watch を登録してから log を読み、新しい record がなければ watch を待って眠る。`append` は watch の
鍵に 1 を足すので、登録の後の commit は watch を起こすはずである。

鍵の値は一 byte なので、登録の後にちょうど 256 の倍数だけ commit されると、値は登録したときのものに戻る。
FDB の watch が確かに起きるのは、値が登録したときと異なる間だけなので、loop は新しい record があるのに
眠り続ける（`wakeup_lost_after_wrap`）。眠っている間の commit が値を登録したときのものに戻さない run
（`CounterMoves`）では、それは起きない（`no_lost_wakeup`）。

定期の poll はない（`PollIntervalFloor = 0`）とする。自分の書き込みの `pollKick` は loop をいつ起こしてもよい。
-/

namespace KubeFdb

open Tuple

/-- watch の鍵の値。最初の commit までは鍵がない。 -/
def Store.watchValue (s : Store) : Option Byte :=
  if s.committed = [] then none else some s.db.watch

/-- 新しい record を見つけなかった読み出しの revision。 -/
def Poll.caughtUp (p : Poll) : Option Int :=
  match p.pc with
  | .fetched lastRev [] => some lastRev
  | _ => none

/-- store と、watch を待つ loop。 -/
structure Waiting where
  store : Store
  poll : Poll
  /-- 登録した watch の、登録したときの値。 -/
  watch : Option (Option Byte)
  /-- `select` で眠っている。 -/
  parked : Bool
deriving DecidableEq

namespace Waiting

def init : Waiting := ⟨.init, .init, none, false⟩

/-- loop の手が、watch の登録の前後のどこで起きるか。 -/
def allows (s : Waiting) : PollLabel → Bool
  | .read _ => s.watch.isSome && !s.parked
  | .fail => !s.parked
  | .stop => s.watch.isNone || s.parked
  | _ => true

/-- 手が `watchFuture.Cancel` を呼ぶか。`p` は手の後の loop である。 -/
def cancels (s : Waiting) (p : Poll) : PollLabel → Bool
  | .read _ => decide (p.pc = .top)
  | .fail => true
  | .advance => s.poll.caughtUp.isNone
  | .stop => true
  | _ => false

/-- 手の後で眠っているか。 -/
def parks (s : Waiting) : PollLabel → Bool
  | .advance => s.poll.caughtUp.isSome
  | .stop => false
  | _ => s.parked

end Waiting

inductive WaitLabel where
  | store (a : StoreLabel)
  /-- watch を登録する。 -/
  | register
  | poll (a : PollLabel)
  /-- watch か `pollKick` が loop を起こす。 -/
  | wake
deriving DecidableEq

def Waiting.step (cfg : Config) (s : Waiting) : WaitLabel → Option Waiting
  | .store a => (s.store.step cfg a).map (fun t => { s with store := t })
  | .register =>
    if s.poll.pc = .top ∧ s.watch = none ∧ s.parked = false then
      some { s with watch := some s.store.watchValue }
    else none
  | .poll a =>
    if s.allows a then
      (s.poll.step cfg s.store.db a).map (fun p =>
        { s with
          poll := p
          watch := if s.cancels p a then none else s.watch
          parked := s.parks a })
    else none
  | .wake => if s.parked then some { s with parked := false, watch := none } else none

/-- cursor より後ろの record があるのに、起きるとは限らない watch を待って眠っていること。 -/
def Waiting.LostWakeup (s : Waiting) : Prop :=
  s.parked = true ∧ s.watch = some s.store.watchValue ∧
    ∃ r ∈ s.store.committed, s.poll.lastWatchRev < r.revision

/-- 読み終えて、眠るところか眠っている loop の cursor。 -/
def Waiting.idleAt (s : Waiting) : Option Int :=
  if s.parked then some s.poll.lastWatchRev else s.poll.caughtUp

/-- 書き込みの手の前の条件。loop が読み終えていれば、commit は watch の鍵の値を登録したときのものに
戻さない。 -/
def CounterMoves (cfg : Config) (s : Waiting) : WaitLabel → Prop
  | .store (.write op lastWriteUUID uuid v) => s.idleAt.isSome = true →
      appendedBy (op.tx cfg lastWriteUUID uuid v s.store.db) ≠ [] →
      s.watch ≠ some (some (s.store.db.watch + 1))
  | _ => True

instance (cfg : Config) (s : Waiting) : (a : WaitLabel) → Decidable (CounterMoves cfg s a)
  | .store (.write op lastWriteUUID uuid v) => inferInstanceAs (Decidable (_ = true →
      appendedBy (op.tx cfg lastWriteUUID uuid v s.store.db) ≠ [] → _ ≠ some (some _)))
  | .store (.tick _) => .isTrue trivial
  | .store (.startCompact _) => .isTrue trivial
  | .store (.compactBatch _ _ _ _) => .isTrue trivial
  | .register => .isTrue trivial
  | .poll _ => .isTrue trivial
  | .wake => .isTrue trivial

/-! ## 不変条件 -/

/-- 読み終えた loop の cursor より後ろに record はないか、watch は起きる。 -/
structure Waiting.Inv (cfg : Config) (s : Waiting) : Prop where
  store : ∃ recs, s.store.Inv cfg recs
  parkedTop : s.parked = true → s.poll.pc = .top
  due : ∀ cur ∈ s.idleAt, (∀ r ∈ s.store.committed, r.revision ≤ cur) ∨
    s.watch ≠ some s.store.watchValue

variable {cfg : Config} {s s' : Waiting} {recs recs' : List RevRecord}

theorem Waiting.init_inv (cfg : Config) : Waiting.init.Inv cfg where
  store := ⟨[], Store.init_inv cfg⟩
  parkedTop := fun h => by cases h
  due := fun cur hc => by cases hc

theorem Waiting.Inv.not_lost (h : s.Inv cfg) : ¬ s.LostWakeup := by
  rintro ⟨hparked, hwatch, r, hr, hlt⟩
  have hidle : s.poll.lastWatchRev ∈ s.idleAt := by simp [Waiting.idleAt, hparked]
  rcases h.due _ hidle with hle | hne
  · exact absurd (hle r hr) (not_le.mpr hlt)
  · exact hne hwatch

/-! ## store の手 -/

theorem append_watch (cfg : Config) (v : Nat) (uuid : UUID) (record : Record) (size : Int) (db : Db) :
    (append cfg v uuid record size db).2.watch = db.watch + 1 := by
  simp only [append, Db.incrementAndGet]
  split <;> split <;> rfl

/-- store の手は、record を一つ足して鍵の値を一つ進めるか、どちらも変えない。 -/
theorem Store.Effect.watch_cases {st st' : Store} {a : StoreLabel}
    (he : Store.Effect cfg st recs a st' recs') :
    (st'.committed = st.committed ∧ st'.db.watch = st.db.watch) ∨
      ((∃ r, st'.committed = st.committed ++ [r]) ∧ st'.db.watch = st.db.watch + 1 ∧
        ∃ op lastWriteUUID uuid v, a = .write op lastWriteUUID uuid v) := by
  cases he with
  | idle _ ha v hv hv63 calls hcalls => exact Or.inl ⟨rfl, rfl⟩
  | wrote op lastWriteUUID uuid v record size hc ht hw =>
    exact Or.inr ⟨⟨_, rfl⟩, append_watch cfg v uuid record size st.db, op, lastWriteUUID, uuid, v, rfl⟩
  | compacted i n v known endRev c c' db' begin_ hc hi hrun hb hbatch heq =>
    exact Or.inl ⟨rfl, hbatch.watch⟩

theorem Waiting.inv_store (h : s.Inv cfg) {a : StoreLabel} {t : Store}
    (hok : CounterMoves cfg s (.store a)) (ht : s.store.step cfg a = some t) :
    Waiting.Inv cfg { s with store := t } := by
  obtain ⟨recs, hinv⟩ := h.store
  obtain ⟨recs', he, hinv'⟩ := Store.inv_step hinv ht
  refine ⟨⟨recs', hinv'⟩, h.parkedTop, fun cur hcur => ?_⟩
  rcases he.watch_cases with ⟨hc, hw⟩ | ⟨⟨r, hr⟩, hw, op, u, uuid, v, rfl⟩
  · have hval : t.watchValue = s.store.watchValue := by simp only [Store.watchValue, hc, hw]
    rw [hc, hval]
    exact h.due cur hcur
  · -- commit した。値は一つ進み、登録したときの値ではない
    have happ : appendedBy (op.tx cfg u uuid v s.store.db) ≠ [] := by
      intro hnil
      have heq := (Store.step_write ht).2
      rw [hnil, List.append_nil, hr] at heq
      exact absurd (congrArg List.length heq) (by simp)
    have hval : t.watchValue = some (s.store.db.watch + 1) := by
      simp [Store.watchValue, hr, hw]
    refine Or.inr ?_
    rw [hval]
    exact hok (Option.isSome_iff_exists.mpr ⟨cur, hcur⟩) happ

/-! ## loop の手 -/

/-- 眠っていない loop は、読み終えたところでなければ条件を持たない。 -/
theorem Waiting.Inv.awake (h : s.Inv cfg) {p : Poll} {watch : Option (Option Byte)}
    (hp : p.caughtUp = none) : Waiting.Inv cfg ⟨s.store, p, watch, false⟩ where
  store := h.store
  parkedTop := fun hf => by cases hf
  due := fun cur hcur => by
    have hc : cur ∈ p.caughtUp := hcur
    rw [hp] at hc
    cases hc

theorem Waiting.Inv.parked_eq_false (h : s.Inv cfg) (hpc : s.poll.pc ≠ .top) : s.parked = false := by
  cases hp : s.parked with
  | false => rfl
  | true => exact absurd (h.parkedTop hp) hpc

/-- loop に変わりがない手は、watch を取り消しても条件を保つ。 -/
theorem Waiting.Inv.cancel (h : s.Inv cfg) (cancelled : Bool) :
    Waiting.Inv cfg { s with watch := if cancelled then none else s.watch } where
  store := h.store
  parkedTop := h.parkedTop
  due := fun cur hcur => by
    cases cancelled with
    | true => exact Or.inr (by simp)
    | false => exact h.due cur hcur

theorem Waiting.inv_poll (h : s.Inv cfg) {a : PollLabel} {p : Poll} (ha : s.allows a = true)
    (hp : s.poll.step cfg s.store.db a = some p) :
    Waiting.Inv cfg
      ⟨s.store, p, if s.cancels p a then none else s.watch, s.parks a⟩ := by
  obtain ⟨recs, hinv⟩ := h.store
  cases Poll.step_effect hp with
  | connect hpc =>
    rw [show s.parks .connect = false from h.parked_eq_false (by simp [hpc])]
    exact h.awake rfl
  | begin_ pollStart hpc =>
    rw [show s.parks .begin_ = false from h.parked_eq_false (by simp [hpc])]
    exact h.awake rfl
  | read n lastRev events hpc hread =>
    have hawake : s.parked = false := by
      simpa using ((Bool.and_eq_true _ _).mp ha).2
    obtain ⟨m, hm, -⟩ := afterBatch_eq cfg hinv.tracks.holds s.poll.lastWatchRev (fun _ => true) n
    have hlast : lastRev = s.store.db.getLatestRev cfg := congrArg Prod.fst (hread.symm.trans hm)
    rw [show s.parks (.read n) = false from hawake]
    cases events with
    | nil =>
      refine ⟨h.store, nofun, fun cur hcur => Or.inl fun r hr => ?_⟩
      have hcur : lastRev = cur := Option.some.inj hcur
      rw [← hcur, hlast]
      exact hinv.bounded.le r hr
    | cons e es => exact h.awake rfl
  | stay _ hne hpc =>
    have hnone : s.poll.caughtUp = none := by simp [Poll.caughtUp, hpc]
    cases hparks : s.parks a with
    | false => exact h.awake hnone
    | true =>
      have hparked : s.parked = true := by
        cases a <;> simp_all [Waiting.parks]
      have hcancel := h.cancel (s.cancels s.poll a)
      rwa [hparked] at hcancel
  | apply lastRev events hpc hne =>
    rw [show s.parks .apply = false from h.parked_eq_false (by simp [hpc])]
    exact h.awake rfl
  | hand events hpc =>
    rw [show s.parks .hand = false from h.parked_eq_false (by simp [hpc])]
    exact h.awake rfl
  | caughtUp lastRev hpc =>
    -- 眠る。cursor は読み終えた revision である
    have hcaught : s.poll.caughtUp = some lastRev := by simp [Poll.caughtUp, hpc]
    have hidle : lastRev ∈ s.idleAt := by
      simp [Waiting.idleAt, h.parked_eq_false (by simp [hpc]), hcaught]
    have hkeep : s.cancels { s.poll with pc := .top, lastWatchRev := lastRev } .advance = false := by
      simp [Waiting.cancels, hcaught]
    rw [hkeep, show s.parks .advance = true by simp [Waiting.parks, hcaught]]
    refine ⟨h.store, fun _ => rfl, fun cur hcur => ?_⟩
    rw [← show lastRev = cur from Option.some.inj hcur]
    exact h.due lastRev hidle
  | advance events hpc =>
    rw [show s.parks .advance = false by simp [Waiting.parks, Poll.caughtUp, hpc]]
    exact h.awake rfl
  | stop hpc => exact h.awake rfl

theorem Waiting.inv_step {a : WaitLabel} (h : s.Inv cfg) (hok : CounterMoves cfg s a)
    (hs : s.step cfg a = some s') : s'.Inv cfg := by
  cases a with
  | store a =>
    obtain ⟨t, ht, rfl⟩ := Option.map_eq_some_iff.mp hs
    exact Waiting.inv_store h hok ht
  | register =>
    simp only [Waiting.step] at hs
    split at hs
    · next hc =>
      rw [← Option.some.inj hs, hc.2.2]
      exact h.awake (by simp [Poll.caughtUp, hc.1])
    · cases hs
  | poll a =>
    simp only [Waiting.step] at hs
    split at hs
    · next ha =>
      obtain ⟨p, hp, rfl⟩ := Option.map_eq_some_iff.mp hs
      exact Waiting.inv_poll h ha hp
    · cases hs
  | wake =>
    simp only [Waiting.step] at hs
    split at hs
    · next hp =>
      rw [← Option.some.inj hs]
      exact h.awake (by simp [Poll.caughtUp, h.parkedTop hp])
    · cases hs

/-! ## run -/

theorem Waiting.inv_run {as : List WaitLabel} (hr : runSteps (Waiting.step cfg) .init as = some s)
    (hok : StepsMeet (Waiting.step cfg) (CounterMoves cfg) .init as) : s.Inv cfg :=
  run_invariant_of (CounterMoves cfg) (fun _ _ _ hp hok hs => Waiting.inv_step hp hok hs)
    (Waiting.init_inv cfg) hok hr

/-- 読み終えた loop の下で commit が鍵の値を登録したときのものに戻さない run では、loop は、cursor より
後ろの record があるのに起きない watch を待って眠ることはない。 -/
theorem no_lost_wakeup (cfg : Config) {as : List WaitLabel} {s : Waiting}
    (hr : runSteps (Waiting.step cfg) .init as = some s)
    (hok : StepsMeet (Waiting.step cfg) (CounterMoves cfg) .init as) : ¬ s.LostWakeup :=
  (Waiting.inv_run hr hok).not_lost

/-- 眠っている間に一つ commit されると、watch は起きる。 -/
theorem no_lost_wakeup_of_commit :
    ∃ s, runSteps (Waiting.step .default) .init
        [.store (.write (.create [97] [] 0) 1 2 2), .poll .connect, .poll .begin_, .register,
          .poll (.read 0), .poll .advance, .store (.write (.create [98] [] 0) 3 4 3)] = some s ∧
      s.parked = true ∧ ¬ s.LostWakeup := by
  have h : (runSteps (Waiting.step .default) .init
      [.store (.write (.create [97] [] 0) 1 2 2), .poll .connect, .poll .begin_, .register,
        .poll (.read 0), .poll .advance, .store (.write (.create [98] [] 0) 3 4 3)]).any
      (fun s => s.parked) = true := by
    decide +kernel
  obtain ⟨s, hs, h⟩ := (Option.any_eq_true _ _).mp h
  exact ⟨s, hs, h, no_lost_wakeup .default hs (by decide +kernel)⟩

/-! ## 256 回の commit -/

/-- 眠るところまでの run。 -/
def parkedRun : List WaitLabel :=
  [.store (.write (.create [97] [] 0) 1 2 2), .poll .connect, .poll .begin_, .register,
    .poll (.read 0), .poll .advance]

/-- 新しい鍵を `n` 個作る run。 -/
def commitsRun (n : Nat) : List StoreLabel :=
  (List.range n).map (fun i =>
    .write (.create (List.replicate (i + 2) 97) [] 0) (2 * i + 3) (2 * i + 4) (i + 3))

theorem commitsRun_succ (n : Nat) : commitsRun (n + 1) = commitsRun n ++
    [.write (.create (List.replicate (n + 2) 97) [] 0) (2 * n + 3) (2 * n + 4) (n + 3)] := by
  unfold commitsRun
  rw [List.range_succ, List.map_append]
  rfl

/-- run は止まらずに進み、watch の鍵の値を一つずつ進める。 -/
theorem commitsRun_reaches {s₀ : Store} (h₀ : s₀.Inv .default recs)
    (hkeys₀ : ∀ r ∈ s₀.committed, r.key.length < 2) (hversion₀ : s₀.db.version < 3) :
    ∀ {n : Nat}, n + 3 < 2 ^ 63 → ∃ s recs',
      runSteps (Store.step .default) s₀ (commitsRun n) = some s ∧ s.Inv .default recs' ∧
        (∀ r ∈ s.committed, r.key.length < n + 2) ∧ s.db.version < n + 3 ∧
        s.db.watch.val = (s₀.db.watch.val + n) % 256 ∧
        (0 < n → ∃ r ∈ s.committed, r.revision = n + 2)
  | 0, _ => ⟨s₀, recs, rfl, h₀, hkeys₀, hversion₀, (Nat.mod_eq_of_lt s₀.db.watch.isLt).symm,
      fun h => absurd h (lt_irrefl _)⟩
  | n + 1, hn => by
    obtain ⟨s, recs', hr, hinv, hkeys, hversion, hwatch, -⟩ :=
      commitsRun_reaches h₀ hkeys₀ hversion₀ (n := n) (by omega)
    have hnew : ∀ r ∈ s.committed, r.key ≠ List.replicate (n + 2) 97 := by
      intro r hr hk
      have hlen := hkeys r hr
      rw [hk, List.length_replicate] at hlen
      exact lt_irrefl _ hlen
    have hcan : s.db.CanCommit .default (n + 3) := ⟨hversion, by omega, nofun⟩
    have hstep : s.step .default
        (.write (.create (List.replicate (n + 2) 97) [] 0) (2 * n + 3) (2 * n + 4) (n + 3)) = _ :=
      Store.step_writes_new hinv hcan rfl hnew (.createNew (List.replicate (n + 2) 97) [] 0)
    obtain ⟨recs'', -, hinv'⟩ := Store.inv_step hinv hstep
    have hrun : runSteps (Store.step .default) s₀ (commitsRun (n + 1)) = _ :=
      (congrArg _ (commitsRun_succ n)).trans (runSteps_concat hr _)
    rw [hstep] at hrun
    refine ⟨_, recs'', hrun, hinv', ?_, ?_, ?_, fun _ => ⟨_, List.mem_append_right _
      List.mem_cons_self, ?_⟩⟩
    · intro r hr'
      rcases List.mem_append.mp hr' with hr' | hr'
      · exact (hkeys r hr').trans (Nat.lt_succ_self _)
      · rw [List.mem_singleton.mp hr']
        show (List.replicate (n + 2) (97 : Byte)).length < n + 1 + 2
        rw [List.length_replicate]
        omega
    · show n + 3 < n + 1 + 3
      omega
    · show (append .default (n + 3) _ _ _ s.db).2.watch.val = _
      rw [append_watch, Fin.val_add, hwatch]
      show ((s₀.db.watch.val + n) % 256 + 1) % 256 = _
      omega
    · show versionstampToInt64 (commitStamp (n + 3)) = _
      rw [versionstampToInt64_commitStamp (by omega)]
      push_cast
      omega

/-- store の run は、loop に触れない。 -/
theorem Waiting.run_store {cfg : Config} : ∀ {as : List StoreLabel} {s : Waiting} {t : Store},
    runSteps (Store.step cfg) s.store as = some t →
    runSteps (Waiting.step cfg) s (as.map .store) = some { s with store := t }
  | [], s, t, hr => by
    rw [← Option.some.inj hr]
    rfl
  | a :: as, s, t, hr => by
    obtain ⟨t₁, ht₁, hr⟩ := runSteps_cons.mp hr
    refine runSteps_cons.mpr ⟨{ s with store := t₁ }, ?_, Waiting.run_store (s := { s with store := t₁ }) hr⟩
    simp only [Waiting.step, ht₁, Option.map_some]

/-- 眠った後に 256 回 commit されると、watch の鍵の値は登録したときのものに戻り、loop は眠り続ける。 -/
theorem wakeup_lost_after_wrap :
    ∃ s, runSteps (Waiting.step .default) .init (parkedRun ++ (commitsRun 256).map .store) = some s ∧
      s.LostWakeup := by
  have h : (runSteps (Waiting.step .default) .init parkedRun).any (fun s =>
      decide (s.parked = true ∧ s.watch = some (some 1) ∧ s.store.db.watch = 1 ∧
        s.poll.lastWatchRev = 2 ∧ (∀ r ∈ s.store.committed, r.key.length < 2) ∧
        s.store.db.version < 3)) = true := by
    decide +kernel
  obtain ⟨s, hs, hparked, hwatch, hone, hcursor, hkeys, hversion⟩ := exists_of_any_decide h
  obtain ⟨recs, hinv⟩ := (Waiting.inv_run hs (by decide +kernel)).store
  obtain ⟨t, recs', hrun, -, -, -, hval, habove⟩ :=
    commitsRun_reaches hinv hkeys hversion (n := 256) (by decide)
  obtain ⟨r, hr, hrev⟩ := habove (by decide)
  refine ⟨{ s with store := t }, ?_, hparked, ?_, r, hr, ?_⟩
  · rw [runSteps_append, hs, Option.bind_some]
    exact Waiting.run_store hrun
  · have hne : t.committed ≠ [] := List.ne_nil_of_mem hr
    have hback : t.db.watch = 1 := Fin.ext (by rw [hval, hone]; rfl)
    show s.watch = some t.watchValue
    rw [hwatch, Store.watchValue, if_neg hne, hback]
  · show s.poll.lastWatchRev < r.revision
    rw [hcursor, hrev]
    decide

end KubeFdb
