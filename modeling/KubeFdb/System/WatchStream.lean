import KubeFdb.System.PollLoop
import KubeFdb.System.VersionChains

/-!
# watch に届く event

`Watch` は、broadcaster を購読してから log を読む。最初の読み出しの event を送った後は、poll の loop が
読んだ event を、broadcaster、`innerWatch`、forwarder の順に受け取って送る。二つの読み手は別々に進み、
つなぎ目は `lastRevision` との比較一つである。

* `skipSent_eq` — 昇順の batch の先頭を飛ばすことは、`lastRevision` より後ろの event を残すことである
* `Started` — 最初の読み出しは、購読より前に配られた event をすべて含む
* `watch_stream_exact` — 送った event は、最後に送った revision までの合う event をちょうど一度ずつ
  並べたものである

broadcaster は kine のもので、このリポジトリにはない。購読している watch に batch を渡した順に配るとし、channel
`values` が一杯の watch には batch を渡さずに捨ててよいとする（`WatchLabel.fanOut`）。どの watch の batch をいつ捨てる
かは run が決める。捨てられた event は `WatchRun.missed` に残り、「broadcaster が watch を打ち切らない」ことは
`missed = []` と書く。`readChan` と `Events` の容量は、batch をいつ流せるかだけを決める。
-/

namespace KubeFdb

open Tuple

/-- `Watch` の位置。 -/
inductive WatchPc where
  /-- `afterAll` の途中。 -/
  | reading (call : AfterCall)
  /-- `afterAll` が失敗して返った。forwarder は起動しない。 -/
  | failed
  /-- 返った。forwarder は最初の event をまだ送っていない。 -/
  | opened (events : List Event) (lastRevision : Int)
  /-- forwarder の loop。 -/
  | forwarding (lastRevision : Int)
deriving DecidableEq

/-- 購読したときに配り終えていた batch の数と、その最後の revision。 -/
structure Joined where
  count : Nat
  upTo : Int
deriving DecidableEq

structure WatchRun where
  prefix_ : Key
  minRevision : Int
  pc : WatchPc
  /-- 購読に失敗した watch では `none`。そのとき `readChan` には何も来ない。 -/
  joined : Option Joined
  values : List (List Event)
  readChan : List (List Event)
  /-- `Events` に送った batch。 -/
  result : List (List Event)
  /-- forwarder が `readChan` から受け取った event の ghost。 -/
  taken : List Event
  /-- broadcaster が渡さずに捨てた event の ghost。 -/
  missed : List Event
deriving DecidableEq

namespace WatchRun

def start (prefix_ : Key) (minRevision : Int) (joined : Option Joined) : WatchRun :=
  ⟨prefix_, minRevision, .reading (.start newAfterCollector), joined, [], [], [], [], []⟩

/-- watch が受け取る鍵。 -/
def accepts (w : WatchRun) (key : Key) : Bool := doesEventHavePrefix key (watchPrefix w.prefix_)

/-- `Watch` が一つ前に直した `minRevision`。 -/
def since (w : WatchRun) : Int := watchMinRevision w.minRevision

/-- 途中の `afterAll` の batch。 -/
def readBatch (cfg : Config) (w : WatchRun) (call : AfterCall) (n : Nat) (db : Db) : AfterCall :=
  (call.batch (AfterCollector.processor cfg (afterAllParams w.since w.accepts))
    (afterRange w.since) n db).1

/-- broadcaster が batch を配る。 -/
def receive (w : WatchRun) (events : List Event) : WatchRun :=
  if w.joined.isSome then { w with values := w.values ++ [events] } else w

/-- channel `values` が一杯で、broadcaster が batch を捨てる。 -/
def miss (w : WatchRun) (events : List Event) : WatchRun :=
  if w.joined.isSome then { w with missed := w.missed ++ events } else w

end WatchRun

inductive WatchAction where
  | read (n : Nat)
  /-- 読み出しの transaction が失敗した。 -/
  | readFailed
  /-- `innerWatch` が batch を一つ処理する。 -/
  | filter
  /-- forwarder が最初の event を送る。 -/
  | sendInitial
  /-- forwarder が batch を一つ処理する。 -/
  | forward
deriving DecidableEq

/-- 一つの watch の一手。`db` はその時点の database である。 -/
def WatchRun.step (cfg : Config) (db : Db) (w : WatchRun) : WatchAction → Option WatchRun
  | .read n =>
    match w.pc with
    | .reading call =>
      let call' := w.readBatch cfg call n db
      if call'.status = .running then some { w with pc := .reading call' }
      else
        match watchStart w.since call'.collector.toResult call'.status with
        | .started events lastRevision => some { w with pc := .opened events lastRevision }
        | .compacted _ _ => some { w with pc := .failed }
        | .unhealthy => some { w with pc := .failed }
    | _ => none
  | .readFailed =>
    match w.pc with
    | .reading _ => some { w with pc := .failed }
    | _ => none
  | .filter =>
    match w.values with
    | events :: rest =>
      some { w with
        values := rest
        readChan := sendBatch w.readChan (innerWatchEvents (watchPrefix w.prefix_) events) }
    | [] => none
  | .sendInitial =>
    match w.pc with
    | .opened events lastRevision =>
      some { w with pc := .forwarding lastRevision, result := sendBatch w.result events }
    | _ => none
  | .forward =>
    match w.pc, w.readChan with
    | .forwarding lastRevision, events :: rest =>
      let f := Forwarder.receive ⟨lastRevision, some (events :: rest), w.result, false⟩
      some { w with
        readChan := f.readChan.getD []
        result := f.result
        taken := w.taken ++ events }
    | _, _ => none

/-- 一つの shim と、その watch。 -/
structure WatchSys where
  shim : Shim
  /-- broadcaster が配り終えた batch の数。 -/
  fanned : Nat
  watches : List WatchRun
deriving DecidableEq

def WatchSys.init : WatchSys := ⟨.init, 0, []⟩

inductive WatchLabel where
  | shim (a : ShimLabel)
  /-- `Watch` が broadcaster を購読する。`subscribed` は `Subscribe` が成功したことをいう。 -/
  | open_ (prefix_ : Key) (minRevision : Int) (subscribed : Bool)
  /-- broadcaster が手元の batch を配る。`full` は、channel が一杯で捨てられる watch の番号である。 -/
  | fanOut (full : List Nat)
  | watch (i : Nat) (a : WatchAction)
deriving DecidableEq

/-- compaction の手。 -/
def WatchLabel.compacts : WatchLabel → Bool
  | .shim (.store a) => !a.isClient
  | _ => false

namespace WatchSys

/-- 購読する watch の始まり。 -/
def joined (s : WatchSys) : Joined :=
  ⟨s.fanned, lastModRevision (s.shim.poll.sent.take s.fanned).flatten (s.shim.origin.getD 0)⟩

/-- 一手。`result` は容量のない channel なので、loop は broadcaster が前の batch を配り終えるまで
次の batch を渡せない。購読は、loop が走っていなければ先に `connect` する。 -/
def step (cfg : Config) (s : WatchSys) : WatchLabel → Option WatchSys
  | .shim a =>
    if a = .poll .hand ∧ s.fanned ≠ s.shim.poll.sent.length then none
    else (s.shim.step cfg a).map (fun t => { s with shim := t })
  | .open_ prefix_ minRevision subscribed =>
    if (subscribed = true → s.shim.poll.pc ≠ .stopped) ∧
        -2 ^ 63 ≤ minRevision ∧ minRevision < 2 ^ 63 then
      some { s with
        watches := s.watches ++
          [.start prefix_ minRevision (if subscribed then some s.joined else none)] }
    else none
  | .fanOut full =>
    match s.shim.poll.sent[s.fanned]? with
    | some events =>
      some { s with
        fanned := s.fanned + 1
        watches := s.watches.mapIdx
          (fun i w => if i ∈ full then w.miss events else w.receive events) }
    | none => none
  | .watch i a =>
    match s.watches[i]? with
    | some w =>
      (w.step cfg s.shim.store.db a).map (fun w' => { s with watches := s.watches.set i w' })
    | none => none

end WatchSys

/-- 送った event が、commit された record の event のうち、鍵と revision が合うものを、最後に送った
revision までちょうど一度ずつ順に並べたものであること。 -/
structure ExactStream (cfg : Config) (hist : List RevRecord) (accepts : Key → Bool)
    (minRevision : Int) (delivered : List Event) : Prop where
  increasing : SortedBy (fun e : Event => e.kv.modRevision) delivered
  accepted : ∀ e ∈ delivered, accepts e.kv.key = true
  complete : ∀ last ∈ delivered.getLast?, delivered
    = (hist.filter (fun r => accepts r.key && decide (minRevision ≤ r.revision) &&
        decide (r.revision ≤ last.kv.modRevision))).map (eventIn cfg hist)

instance (cfg : Config) (hist : List RevRecord) (accepts : Key → Bool) (minRevision : Int)
    (delivered : List Event) : Decidable (ExactStream cfg hist accepts minRevision delivered) :=
  decidable_of_iff
    (delivered.Pairwise (fun e e' : Event => e.kv.modRevision < e'.kv.modRevision) ∧
      (∀ e ∈ delivered, accepts e.kv.key = true) ∧ ∀ last ∈ delivered.getLast?, delivered
        = (hist.filter (fun r => accepts r.key && decide (minRevision ≤ r.revision) &&
          decide (r.revision ≤ last.kv.modRevision))).map (eventIn cfg hist))
    ⟨fun h => ⟨h.1, h.2.1, h.2.2⟩, fun h => ⟨h.increasing, h.accepted, h.complete⟩⟩

variable {cfg : Config} {db : Db} {w w' : WatchRun} {hist : List RevRecord}

/-! ## watch の一手 -/

/-- watch の手がすることのすべて。 -/
inductive WatchRun.Effect (cfg : Config) (db : Db) (w : WatchRun) : WatchAction → WatchRun → Prop
  | reading (n : Nat) (call : AfterCall) (hpc : w.pc = .reading call)
      (hrun : (w.readBatch cfg call n db).status = .running) :
    Effect cfg db w (.read n) { w with pc := .reading (w.readBatch cfg call n db) }
  | opened (n : Nat) (call : AfterCall) (events : List Event) (lastRevision : Int)
      (hpc : w.pc = .reading call) (hrun : (w.readBatch cfg call n db).status ≠ .running)
      (hstart : watchStart w.since (w.readBatch cfg call n db).collector.toResult
        (w.readBatch cfg call n db).status = .started events lastRevision) :
    Effect cfg db w (.read n) { w with pc := .opened events lastRevision }
  | failed (a : WatchAction) (call : AfterCall) (hpc : w.pc = .reading call) :
    Effect cfg db w a { w with pc := .failed }
  | filtered (events : List Event) (rest : List (List Event)) (hvalues : w.values = events :: rest) :
    Effect cfg db w .filter
      { w with
        values := rest
        readChan := sendBatch w.readChan (innerWatchEvents (watchPrefix w.prefix_) events) }
  | sentInitial (events : List Event) (lastRevision : Int)
      (hpc : w.pc = .opened events lastRevision) :
    Effect cfg db w .sendInitial
      { w with pc := .forwarding lastRevision, result := sendBatch w.result events }
  | forwarded (lastRevision : Int) (events : List Event) (rest : List (List Event))
      (hpc : w.pc = .forwarding lastRevision) (hread : w.readChan = events :: rest) :
    Effect cfg db w .forward
      { w with
        readChan := rest
        result := sendBatch w.result (skipSent lastRevision events)
        taken := w.taken ++ events }

theorem WatchRun.step_effect {a : WatchAction} (hs : w.step cfg db a = some w') :
    WatchRun.Effect cfg db w a w' := by
  cases a with
  | read n =>
    simp only [WatchRun.step] at hs
    split at hs
    · next call hpc =>
      split at hs
      · next hrun => cases hs; exact .reading n call hpc hrun
      · next hrun =>
        split at hs
        · next events lastRevision hstart =>
          cases hs
          exact .opened n call events lastRevision hpc hrun hstart
        · cases hs; exact .failed _ call hpc
        · cases hs; exact .failed _ call hpc
    · cases hs
  | readFailed =>
    simp only [WatchRun.step] at hs
    split at hs
    · next call hpc => cases hs; exact .failed _ call hpc
    · cases hs
  | filter =>
    simp only [WatchRun.step] at hs
    split at hs
    · next events rest hvalues => cases hs; exact .filtered events rest hvalues
    · cases hs
  | sendInitial =>
    simp only [WatchRun.step] at hs
    split at hs
    · next events lastRevision hpc => cases hs; exact .sentInitial events lastRevision hpc
    · cases hs
  | forward =>
    simp only [WatchRun.step] at hs
    split at hs
    · next lastRevision events rest hpc hread =>
      cases hs
      exact .forwarded lastRevision events rest hpc hread
    · cases hs

/-- 一手がすることのすべて。 -/
inductive WatchSys.Effect (cfg : Config) (s : WatchSys) : WatchLabel → WatchSys → Prop
  | shim (a : ShimLabel) (t : Shim) (ht : s.shim.step cfg a = some t) :
    Effect cfg s (.shim a) { s with shim := t }
  | opened (prefix_ : Key) (minRevision : Int) (subscribed : Bool)
      (hrunning : subscribed = true → s.shim.poll.pc ≠ .stopped)
      (hrange : -2 ^ 63 ≤ minRevision ∧ minRevision < 2 ^ 63) :
    Effect cfg s (.open_ prefix_ minRevision subscribed)
      { s with
        watches := s.watches ++
          [.start prefix_ minRevision (if subscribed then some s.joined else none)] }
  | fannedOut (full : List Nat) (events : List Event)
      (hev : s.shim.poll.sent[s.fanned]? = some events) :
    Effect cfg s (.fanOut full)
      { s with
        fanned := s.fanned + 1
        watches := s.watches.mapIdx
          (fun i w => if i ∈ full then w.miss events else w.receive events) }
  | watched (i : Nat) (a : WatchAction) (w w' : WatchRun) (hi : s.watches[i]? = some w)
      (he : WatchRun.Effect cfg s.shim.store.db w a w') :
    Effect cfg s (.watch i a) { s with watches := s.watches.set i w' }

theorem WatchSys.step_effect {s s' : WatchSys} {a : WatchLabel} (hs : s.step cfg a = some s') :
    WatchSys.Effect cfg s a s' := by
  cases a with
  | shim a =>
    simp only [WatchSys.step] at hs
    split at hs
    · cases hs
    · obtain ⟨t, ht, rfl⟩ := Option.map_eq_some_iff.mp hs
      exact .shim a t ht
  | open_ prefix_ minRevision subscribed =>
    simp only [WatchSys.step] at hs
    split at hs
    · next hok => cases hs; exact .opened prefix_ minRevision subscribed hok.1 hok.2
    · cases hs
  | fanOut full =>
    simp only [WatchSys.step] at hs
    split at hs
    · next events hev => cases hs; exact .fannedOut full events hev
    · cases hs
  | watch i a =>
    simp only [WatchSys.step] at hs
    split at hs
    · next w hi =>
      obtain ⟨w', hw', rfl⟩ := Option.map_eq_some_iff.mp hs
      exact .watched i a w w' hi (WatchRun.step_effect hw')
    · cases hs

/-! ## 変わらない event -/

/-- `PrevRevision` の record が列の中にあること。compaction のない run では、いつも成り立つ。 -/
def PrevKept (hist : List RevRecord) : Prop :=
  ∀ r ∈ hist, r.record.prevRevision ≠ dummyVersionstamp →
    ∃ p ∈ hist, p.rev = r.record.prevRevision

theorem prevKept_of_wellChained (h : ∀ k, WellChained (chainOf hist k)) : PrevKept hist := by
  intro r hr hd
  have hmem : r ∈ chainOf hist r.key := List.mem_filter.mpr ⟨hr, decide_eq_true rfl⟩
  obtain ⟨pre, post, hsplit⟩ := List.append_of_mem hmem
  have hstep := (EachAfter.at (hsplit ▸ h r.key)).2
  rw [hstep.prev] at hd ⊢
  cases hl : pre.getLast? with
  | none => rw [hl] at hd; exact absurd rfl hd
  | some p =>
    have hp : p ∈ chainOf hist r.key := by
      rw [hsplit]
      exact List.mem_append_left _ (List.mem_of_getLast? hl)
    exact ⟨p, List.mem_of_mem_filter hp, rfl⟩

/-- 後から commit された record は、前の record の event を変えない。 -/
theorem eventIn_append (h : PrevKept hist) (t : List RevRecord) {r : RevRecord} (hr : r ∈ hist) :
    eventIn cfg (hist ++ t) r = eventIn cfg hist r := by
  unfold eventIn
  by_cases hd : r.record.prevRevision ≠ dummyVersionstamp
  · rw [if_pos hd, if_pos hd]
    obtain ⟨p, hp, hrev⟩ := h r hr hd
    have hsome : (atRev hist r.record.prevRevision).isSome = true :=
      List.find?_isSome.mpr ⟨p, hp, decide_eq_true hrev⟩
    have hfind : atRev (hist ++ t) r.record.prevRevision = atRev hist r.record.prevRevision := by
      show (hist ++ t).find? _ = hist.find? _
      rw [List.find?_append]
      exact Option.or_of_isSome hsome
    rw [hfind]
  · rw [if_neg hd, if_neg hd]

theorem eventsOf_append_hist (h : PrevKept hist) (t : List RevRecord) {takeKey : Key → Bool}
    {l : List RevRecord} (hl : ∀ r ∈ l, r ∈ hist) :
    eventsOf cfg takeKey (hist ++ t) l = eventsOf cfg takeKey hist l :=
  List.map_congr_left fun r hr => eventIn_append h t (hl r (List.mem_of_mem_filter hr))

/-- どの event も、commit された record の event であること。 -/
def Recorded (cfg : Config) (hist : List RevRecord) (events : List Event) : Prop :=
  ∀ e ∈ events, ∃ r ∈ hist, e = eventIn cfg hist r

theorem Recorded.append_hist {events : List Event} (h : Recorded cfg hist events)
    (hp : PrevKept hist) (t : List RevRecord) : Recorded cfg (hist ++ t) events := by
  intro e he
  obtain ⟨r, hr, rfl⟩ := h e he
  exact ⟨r, List.mem_append_left _ hr, (eventIn_append hp t hr).symm⟩

/-- 記録された event の列は、revision だけで決まる。 -/
theorem Reports.eq_map (hs : SortedBy RevRecord.revision hist) : ∀ {events : List Event}
    {rs : List RevRecord}, Reports cfg events rs → (∀ r ∈ rs, r ∈ hist) →
    Recorded cfg hist events → events = rs.map (eventIn cfg hist)
  | [], [], _, _, _ => rfl
  | [], _ :: _, h, _, _ => by cases h
  | _ :: _, [], h, _, _ => by cases h
  | e :: events, r :: rs, h, hrs, he => by
    obtain ⟨hhead, htail⟩ := List.cons.inj h
    obtain ⟨r', hr', rfl⟩ := he e List.mem_cons_self
    -- 同じ revision の record は一つしかない
    have hrev : r'.revision = r.revision := by
      have hm := congrArg (fun e : Event => e.kv.modRevision) hhead
      exact eventIn_modRevision.symm.trans hm
    obtain rfl := hs.eq_of_index_eq hr' (hrs r List.mem_cons_self) hrev
    rw [List.map_cons, Reports.eq_map hs htail (fun x hx => hrs x (List.mem_cons_of_mem _ hx))
      (fun x hx => he x (List.mem_cons_of_mem _ hx))]

/-! ## loop が渡した event -/

/-- compaction のない run で、loop が保つもの。 -/
structure Shim.Exact (cfg : Config) (s : Shim) : Prop where
  inv : s.Inv cfg s.store.committed
  chains : ∀ k, WellChained (chainOf s.store.committed k)
  events : Recorded cfg s.store.committed (s.poll.pending ++ s.poll.sent.flatten)

theorem Shim.init_exact (cfg : Config) : Shim.init.Exact cfg :=
  ⟨Shim.init_inv cfg, fun _ => eachAfter_nil, fun _ he => absurd he List.not_mem_nil⟩

/-- 一手で増えるもの。`store` の新しい record は、その前の最新の revision より後ろにある。 -/
structure Shim.Grows (cfg : Config) (s s' : Shim) : Prop where
  committed : ∃ t, s'.store.committed = s.store.committed ++ t ∧
    ∀ r ∈ t, s.store.db.getLatestRev cfg < r.revision
  sent : s.poll.sent <+: s'.poll.sent
  origin : ∀ start, s.origin = some start → s'.origin = some start

variable {s s' : Shim}

theorem Shim.Exact.store {a : StoreLabel} (h : s.Exact cfg) (ha : a.isClient = true) {st' : Store}
    {recs' : List RevRecord} (he : Store.Effect cfg s.store s.store.committed a st' recs') :
    Shim.Exact cfg { s with store := st' } ∧ s.Grows cfg { s with store := st' } := by
  have hspare : SparesUnpolled s (.store a) := by cases a <;> trivial
  have hinv := Shim.inv_store h.inv hspare he
  have hgrow : ∃ t, st'.committed = s.store.committed ++ t ∧
      ∀ r ∈ t, s.store.db.getLatestRev cfg < r.revision := by
    cases he with
    | idle _ _ v hv hv63 calls hcalls => exact ⟨[], (List.append_nil _).symm, by simp⟩
    | wrote op lastWriteUUID uuid v record size hcan ht hw =>
      refine ⟨_, rfl, fun r hr => ?_⟩
      rw [List.mem_singleton.mp hr]
      exact (incrementAndGet_spec h.inv.store.bounded hcan).2
    | compacted i n v known endRev c c' db' begin_ hcan hi hrun hb hbatch heq => cases ha
  obtain rfl := he.committed_eq ha
  refine ⟨⟨hinv, he.wellChained h.chains, ?_⟩, hgrow, List.prefix_rfl, fun _ ho => ho⟩
  obtain ⟨t, ht, -⟩ := hgrow
  show Recorded cfg st'.committed _
  rw [ht]
  exact h.events.append_hist (prevKept_of_wellChained h.chains) t

/-- loop が読む event は、commit された record の event である。 -/
theorem Poll.Effect.recorded {p p' : Poll} {a : PollLabel} (hd : db.Holds hist)
    (h : Recorded cfg hist (p.pending ++ p.sent.flatten)) (he : Poll.Effect cfg db p a p') :
    Recorded cfg hist (p'.pending ++ p'.sent.flatten) := by
  have hsent : Recorded cfg hist p.sent.flatten := fun e hm => h e (List.mem_append_right _ hm)
  cases he with
  | connect hpc => exact hsent
  | begin_ pollStart hpc => exact hsent
  | read n lastRev events hpc hread =>
    intro e hm
    rcases List.mem_append.mp hm with hm | hm
    · have hmem : e ∈ (afterBatch cfg p.lastWatchRev (fun _ => true) n db).2.1 := by
        rw [hread]
        exact hm
      exact (Db.reads_iff hd).mp (Db.reads_of_afterBatch hd hmem)
    · exact hsent e hm
  | stay _ ha hpc => exact h
  | apply lastRev events hpc hne =>
    simp only [Poll.pending, hpc] at h ⊢
    exact h
  | hand events hpc =>
    simp only [Poll.pending, hpc, List.flatten_append, List.flatten_singleton] at h ⊢
    intro e hm
    exact h e (by simpa [or_comm] using hm)
  | caughtUp lastRev hpc => exact hsent
  | advance events hpc => exact hsent
  | stop hpc => exact hsent

theorem Shim.Exact.poll {a : PollLabel} {p' : Poll} (h : s.Exact cfg)
    (he : Poll.Effect cfg s.store.db s.poll a p') {t : Shim}
    (ht : t = { s with
      poll := p'
      origin :=
        if a = .connect then
          s.origin.or (some (currentRevision cfg s.poll.lastWatchRev s.store.db))
        else s.origin }) :
    t.Exact cfg ∧ s.Grows cfg t := by
  subst ht
  refine ⟨⟨Shim.inv_poll h.inv he, h.chains, he.recorded h.inv.store.tracks.holds h.events⟩,
    ⟨[], (List.append_nil _).symm, by simp⟩, ?_, fun start ho => by simp [ho]⟩
  cases he with
  | hand events hpc => exact List.prefix_append _ _
  | _ => exact List.prefix_rfl

theorem Shim.Exact.step {a : ShimLabel} (h : s.Exact cfg)
    (ha : ∀ b, a = .store b → b.isClient = true) (hs : s.step cfg a = some s') :
    s'.Exact cfg ∧ s.Grows cfg s' := by
  cases a with
  | store a =>
    obtain ⟨t, ht, rfl⟩ := Option.map_eq_some_iff.mp hs
    obtain ⟨recs', he⟩ := Store.step_effect h.inv.store ht
    exact h.store (ha a rfl) he
  | poll a =>
    obtain ⟨p', hp', ht⟩ := Option.map_eq_some_iff.mp hs
    exact h.poll (Poll.step_effect hp') ht.symm

theorem lastModRevision_map_eventIn (l : List RevRecord) (rev : Int) :
    lastModRevision (l.map (eventIn cfg hist)) rev
      = (l.getLast?.map RevRecord.revision).getD rev := by
  unfold lastModRevision
  rw [List.getLast?_map]
  cases l.getLast? with
  | none => rfl
  | some r => exact eventIn_modRevision

/-- 渡した event は、始まってから渡し終えた revision までの record の event である。 -/
theorem Shim.Exact.sent_eq (h : s.Exact cfg) {start : Int} (ho : s.origin = some start) :
    s.poll.sent.flatten
      = (between RevRecord.revision s.store.committed start s.poll.handedTo).map
        (eventIn cfg s.store.committed) :=
  ((h.inv.polled start ho).sent).eq_map h.inv.store.sorted_revision
    (fun _ hr => (mem_between.mp hr).1) (fun e he => h.events e (List.mem_append_right _ he))

/-- `j` 個目より後ろの batch は、それまでの最後の revision より後ろの record の event である。 -/
theorem Shim.Exact.drop_eq (h : s.Exact cfg) {start : Int} (ho : s.origin = some start) (j : Nat) :
    lastModRevision (s.poll.sent.take j).flatten start ≤ s.poll.handedTo ∧
      (s.poll.sent.drop j).flatten
        = (between RevRecord.revision s.store.committed
            (lastModRevision (s.poll.sent.take j).flatten start) s.poll.handedTo).map
          (eventIn cfg s.store.committed) := by
  have hp := h.inv.polled start ho
  have hle : start ≤ s.poll.handedTo := by
    refine hp.start_le.trans ?_
    unfold Poll.handedTo
    split
    · next events hpc =>
      have hcur := hp.cursor_le
      simp only [Poll.position, hpc] at hcur
      exact hcur
    · exact le_rfl
  have hsent := h.sent_eq ho
  rw [← List.take_append_drop j s.poll.sent, List.flatten_append] at hsent
  obtain ⟨pre, post, hsplit, hpre, hpost⟩ := List.map_eq_append_iff.mp hsent.symm
  obtain ⟨-, hhanded, -, hp⟩ := between_split h.inv.store.sorted_revision hle hsplit.symm
  rw [← hpre, lastModRevision_map_eventIn, ← hpost, ← hp]
  exact ⟨hhanded, rfl⟩

/-! ## channel -/

@[simp] theorem sendBatch_flatten (channel : List (List Event)) (events : List Event) :
    (sendBatch channel events).flatten = channel.flatten ++ events := by
  unfold sendBatch
  split
  · rw [List.flatten_append, List.flatten_singleton]
  · next h => rw [not_not.mp h, List.append_nil]

/-- 昇順の batch の先頭を飛ばすことは、`lastRevision` より後ろの event を残すことである。 -/
theorem skipSent_eq (lastRevision : Int) : ∀ {events : List Event},
    SortedBy (fun e : Event => e.kv.modRevision) events →
    skipSent lastRevision events
      = events.filter (fun e => decide (lastRevision < e.kv.modRevision))
  | [], _ => rfl
  | e :: events, h => by
    rw [skipSent]
    by_cases he : e.kv.modRevision ≤ lastRevision
    · rw [if_pos he, skipSent_eq lastRevision h.tail, List.filter_cons_of_neg (by simpa using he)]
    · -- 先頭が後ろにあれば、残りもすべて後ろにある
      rw [if_neg he, List.filter_eq_self.mpr]
      intro x hx
      rcases List.mem_cons.mp hx with rfl | hx
      · exact decide_eq_true (not_le.mp he)
      · exact decide_eq_true ((not_le.mp he).trans (h.lt_of_mem hx))

namespace WatchRun

/-- watch が受け取る event。 -/
def wanted (w : WatchRun) (events : List Event) : List Event :=
  innerWatchEvents (watchPrefix w.prefix_) events

/-- 購読してから broadcaster が配った event。捨てられたものも含む。 -/
def fed (w : WatchRun) (sent : List (List Event)) (fanned : Nat) : List Event :=
  match w.joined with
  | some j => ((sent.take fanned).drop j.count).flatten
  | none => []

theorem mem_wanted {events : List Event} {e : Event} :
    e ∈ w.wanted events ↔ e ∈ events ∧ w.accepts e.kv.key = true := List.mem_filter

theorem wanted_append (events events' : List Event) :
    w.wanted (events ++ events') = w.wanted events ++ w.wanted events' := List.filter_append ..

/-- broadcaster が渡した合う event。forwarder が受け取ったか、途中の段にある。 -/
def passed (w : WatchRun) : List Event :=
  w.taken ++ w.readChan.flatten ++ w.wanted w.values.flatten

end WatchRun

/-! ## 不変条件 -/

/-- 読み終えた最初の読み出し。購読より前に配られた event は、すべて読んである。 -/
structure Started (cfg : Config) (hist : List RevRecord) (w : WatchRun) (read : List RevRecord)
    (events : List Event) (lastRevision : Int) : Prop where
  isPrefix : read <+: afterTodo hist w.since none
  events_eq : events = eventsOf cfg w.accepts hist read
  last_eq : lastRevision = lastModRevision events w.since
  covers : ∀ j ∈ w.joined, ∀ r ∈ afterTodo hist w.since none, r.revision ≤ j.upTo → r ∈ read

/-- `Watch` の位置ごとに、送った event が何であるか。 -/
inductive WatchRun.Phase (cfg : Config) (hist : List RevRecord) (w : WatchRun) : Prop
  /-- `latestRev` は、購読の後の snapshot の最新の revision である。 -/
  | reading (call : AfterCall) (read : List RevRecord) (hpc : w.pc = .reading call)
      (hresult : w.result = []) (htaken : w.taken = [])
      (hinv : AfterInv cfg w.accepts w.since hist call read)
      (hlatest : call.collector.latestRev ≠ 0 → ∀ j ∈ w.joined, j.upTo ≤ call.collector.latestRev)
  | failed (hpc : w.pc = .failed) (hresult : w.result = []) (htaken : w.taken = [])
  | opened (events : List Event) (lastRevision : Int) (read : List RevRecord)
      (hpc : w.pc = .opened events lastRevision) (hresult : w.result = []) (htaken : w.taken = [])
      (hstart : Started cfg hist w read events lastRevision)
  | forwarding (events : List Event) (lastRevision : Int) (read : List RevRecord)
      (hpc : w.pc = .forwarding lastRevision) (hstart : Started cfg hist w read events lastRevision)
      (hresult : w.result.flatten
        = events ++ w.taken.filter (fun e => decide (lastRevision < e.kv.modRevision)))

structure WatchRun.Inv (cfg : Config) (sh : Shim) (fanned : Nat) (w : WatchRun) : Prop where
  range : -2 ^ 63 ≤ w.minRevision ∧ w.minRevision < 2 ^ 63
  joined : ∀ j ∈ w.joined, j.count ≤ fanned ∧ ∃ start, sh.origin = some start ∧
    j.upTo = lastModRevision (sh.poll.sent.take j.count).flatten start
  /-- 渡された event は、配られた順に並んでいる。 -/
  order : w.passed.Sublist (w.wanted (w.fed sh.poll.sent fanned))
  /-- 配られた event は、渡されたか、捨てられている。 -/
  pipe : (w.passed ++ w.wanted w.missed).Perm (w.wanted (w.fed sh.poll.sent fanned))
  phase : w.Phase cfg sh.store.committed

structure WatchSys.Inv (cfg : Config) (s : WatchSys) : Prop where
  shim : s.shim.Exact cfg
  fanned_le : s.fanned ≤ s.shim.poll.sent.length
  watches : ∀ w ∈ s.watches, w.Inv cfg s.shim s.fanned

/-! ### commit された record が増えるとき -/

theorem afterTodo_append (t : List RevRecord) (minRevision : Int) (begin_ : Option Versionstamp) :
    afterTodo (hist ++ t) minRevision begin_
      = afterTodo hist minRevision begin_ ++ afterTodo t minRevision begin_ := List.filter_append ..

theorem AfterInv.append_hist {takeKey : Key → Bool} {minRevision : Int} {call : AfterCall}
    {read : List RevRecord} (h : AfterInv cfg takeKey minRevision hist call read)
    (hp : PrevKept hist) (t : List RevRecord) :
    AfterInv cfg takeKey minRevision (hist ++ t) call read where
  running := h.running
  begin_ := h.begin_
  isPrefix := by
    rw [afterTodo_append]
    exact h.isPrefix.trans (List.prefix_append _ _)
  events := by
    rw [h.events, eventsOf_append_hist hp t fun r hr => (mem_afterTodo.mp (h.isPrefix.subset hr)).1]

theorem Started.append_hist {read : List RevRecord} {events : List Event} {lastRevision : Int}
    (h : Started cfg hist w read events lastRevision) (hp : PrevKept hist) {t : List RevRecord}
    (ht : ∀ j ∈ w.joined, ∀ r ∈ t, j.upTo < r.revision) :
    Started cfg (hist ++ t) w read events lastRevision where
  isPrefix := by
    rw [afterTodo_append]
    exact h.isPrefix.trans (List.prefix_append _ _)
  events_eq := by
    rw [h.events_eq,
      eventsOf_append_hist hp t fun r hr => (mem_afterTodo.mp (h.isPrefix.subset hr)).1]
  last_eq := h.last_eq
  covers := by
    intro j hj r hr hle
    rw [afterTodo_append] at hr
    rcases List.mem_append.mp hr with hr | hr
    · exact h.covers j hj r hr hle
    · exact absurd (ht j hj r (mem_afterTodo.mp hr).1) (not_lt.mpr hle)

theorem WatchRun.Phase.append_hist (h : w.Phase cfg hist) (hp : PrevKept hist) {t : List RevRecord}
    (ht : ∀ j ∈ w.joined, ∀ r ∈ t, j.upTo < r.revision) : w.Phase cfg (hist ++ t) := by
  cases h with
  | reading call read hpc hresult htaken hinv hlatest =>
    exact .reading call read hpc hresult htaken (hinv.append_hist hp t) hlatest
  | failed hpc hresult htaken => exact .failed hpc hresult htaken
  | opened events lastRevision read hpc hresult htaken hstart =>
    exact .opened events lastRevision read hpc hresult htaken (hstart.append_hist hp ht)
  | forwarding events lastRevision read hpc hstart hresult =>
    exact .forwarding events lastRevision read hpc (hstart.append_hist hp ht) hresult

/-! ### store と loop の手 -/

variable {fanned : Nat}

/-- 購読のときに配り終えていた revision は、渡し終えた revision を超えない。 -/
theorem WatchRun.Inv.upTo_le (hw : w.Inv cfg s fanned) (h : s.Exact cfg) {j : Joined}
    (hj : j ∈ w.joined) :
    j.upTo ≤ s.poll.handedTo ∧ j.upTo ≤ s.store.db.getLatestRev cfg := by
  obtain ⟨-, start, ho, hup⟩ := hw.joined j hj
  have hp := h.inv.polled start ho
  have hle := (h.drop_eq ho j.count).1
  rw [← hup] at hle
  exact ⟨hle, (hle.trans (Poll.handedTo_le hp.cursor_le)).trans hp.position_le⟩

theorem WatchRun.Inv.grows (hw : w.Inv cfg s fanned) (h : s.Exact cfg)
    (hf : fanned ≤ s.poll.sent.length) (hg : s.Grows cfg s') : w.Inv cfg s' fanned := by
  obtain ⟨⟨t, ht, hnew⟩, ⟨more, hsent⟩, horigin⟩ := hg
  -- 配り終えた batch は変わらない
  have htake : ∀ n, n ≤ fanned → s'.poll.sent.take n = s.poll.sent.take n := by
    intro n hn
    rw [← hsent, List.take_append_of_le_length (hn.trans hf)]
  have hfed : w.fed s'.poll.sent fanned = w.fed s.poll.sent fanned := by
    unfold WatchRun.fed
    rw [htake fanned le_rfl]
  refine ⟨hw.range, fun j hj => ?_, by rw [hfed]; exact hw.order, by rw [hfed]; exact hw.pipe, ?_⟩
  · obtain ⟨hle, start, ho, hup⟩ := hw.joined j hj
    exact ⟨hle, start, horigin start ho, by rw [htake j.count hle]; exact hup⟩
  · rw [ht]
    exact hw.phase.append_hist (prevKept_of_wellChained h.chains)
      fun j hj r hr => (hw.upTo_le h hj).2.trans_lt (hnew r hr)

/-! ### broadcaster の手 -/

/-- 途中の段の batch と捨てられた event は、送った event に関わらない。 -/
theorem WatchRun.Phase.queues (h : w.Phase cfg hist) (values readChan : List (List Event))
    (missed : List Event) :
    WatchRun.Phase cfg hist
      { w with values := values, readChan := readChan, missed := missed } := by
  cases h with
  | reading call read hpc hresult htaken hinv hlatest =>
    exact .reading call read hpc hresult htaken hinv hlatest
  | failed hpc hresult htaken => exact .failed hpc hresult htaken
  | opened events lastRevision read hpc hresult htaken hstart =>
    exact .opened events lastRevision read hpc hresult htaken
      ⟨hstart.isPrefix, hstart.events_eq, hstart.last_eq, hstart.covers⟩
  | forwarding events lastRevision read hpc hstart hresult =>
    exact .forwarding events lastRevision read hpc
      ⟨hstart.isPrefix, hstart.events_eq, hstart.last_eq, hstart.covers⟩ hresult

/-- 配られた batch。購読していない watch には配られない。 -/
theorem WatchRun.Inv.fed_succ (hw : w.Inv cfg s fanned) {events : List Event}
    (hev : s.poll.sent[fanned]? = some events) :
    w.fed s.poll.sent (fanned + 1)
      = w.fed s.poll.sent fanned ++ (if w.joined.isSome then events else []) := by
  unfold WatchRun.fed
  cases hj : w.joined with
  | none => rfl
  | some j =>
    have hle := (hw.joined j hj).1
    obtain ⟨hlt, rfl⟩ := List.getElem?_eq_some_iff.mp hev
    show ((s.poll.sent.take (fanned + 1)).drop j.count).flatten = _
    rw [List.take_succ_eq_append_getElem hlt,
      List.drop_append_of_le_length (by rw [List.length_take]; omega), List.flatten_append,
      List.flatten_singleton]
    rfl

theorem WatchRun.Inv.joined_succ (hw : w.Inv cfg s fanned) : ∀ j ∈ w.joined, j.count ≤ fanned + 1 ∧
    ∃ start, s.origin = some start ∧
      j.upTo = lastModRevision (s.poll.sent.take j.count).flatten start := fun j hj =>
  ⟨(hw.joined j hj).1.trans (Nat.le_succ fanned), (hw.joined j hj).2⟩

/-- 配られた batch は、`values` の最後に入る。 -/
theorem WatchRun.Inv.receive (hw : w.Inv cfg s fanned) {events : List Event}
    (hev : s.poll.sent[fanned]? = some events) : (w.receive events).Inv cfg s (fanned + 1) := by
  have hfed := hw.fed_succ hev
  unfold WatchRun.receive
  by_cases hsome : w.joined.isSome = true
  · rw [if_pos hsome] at hfed ⊢
    have hpassed : WatchRun.passed { w with values := w.values ++ [events] }
        = w.passed ++ w.wanted events := by
      show w.taken ++ w.readChan.flatten ++ w.wanted (w.values ++ [events]).flatten = _
      rw [List.flatten_append, List.flatten_singleton, WatchRun.wanted_append, ← List.append_assoc]
      rfl
    refine ⟨hw.range, hw.joined_succ, ?_, ?_, hw.phase.queues _ _ _⟩
    · show WatchRun.passed _ |>.Sublist (w.wanted (w.fed s.poll.sent (fanned + 1)))
      rw [hpassed, hfed, WatchRun.wanted_append]
      exact hw.order.append_right _
    · show (WatchRun.passed _ ++ w.wanted w.missed).Perm (w.wanted (w.fed s.poll.sent (fanned + 1)))
      rw [hpassed, hfed, WatchRun.wanted_append]
      refine (List.Perm.trans ?_ (hw.pipe.append_right _))
      rw [List.append_assoc, List.append_assoc]
      exact List.perm_append_comm.append_left _
  · rw [if_neg hsome, List.append_nil] at hfed
    rw [if_neg hsome]
    exact ⟨hw.range, hw.joined_succ, by rw [hfed]; exact hw.order, by rw [hfed]; exact hw.pipe,
      hw.phase⟩

/-- 捨てられた batch は、どの段にも入らない。 -/
theorem WatchRun.Inv.miss (hw : w.Inv cfg s fanned) {events : List Event}
    (hev : s.poll.sent[fanned]? = some events) : (w.miss events).Inv cfg s (fanned + 1) := by
  have hfed := hw.fed_succ hev
  unfold WatchRun.miss
  by_cases hsome : w.joined.isSome = true
  · rw [if_pos hsome] at hfed ⊢
    refine ⟨hw.range, hw.joined_succ, ?_, ?_, hw.phase.queues _ _ _⟩
    · show w.passed.Sublist (w.wanted (w.fed s.poll.sent (fanned + 1)))
      rw [hfed, WatchRun.wanted_append]
      exact hw.order.trans (List.sublist_append_left _ _)
    · show (w.passed ++ w.wanted (w.missed ++ events)).Perm
        (w.wanted (w.fed s.poll.sent (fanned + 1)))
      rw [hfed, WatchRun.wanted_append, WatchRun.wanted_append, ← List.append_assoc]
      exact hw.pipe.append_right _
  · rw [if_neg hsome, List.append_nil] at hfed
    rw [if_neg hsome]
    exact ⟨hw.range, hw.joined_succ, by rw [hfed]; exact hw.order, by rw [hfed]; exact hw.pipe,
      hw.phase⟩

/-- 捨てられた event がなければ、配られた合う event はすべて渡されている。 -/
theorem WatchRun.Inv.passed_eq (hw : w.Inv cfg s fanned) (hm : w.missed = []) :
    w.passed = w.wanted (w.fed s.poll.sent fanned) := by
  have hpipe := hw.pipe
  rw [hm, show w.wanted [] = [] from rfl, List.append_nil] at hpipe
  exact hw.order.eq_of_length hpipe.length_eq

/-- 購読したばかりの watch。 -/
theorem WatchRun.start_inv {prefix_ : Key} {minRevision : Int} {joined : Option Joined}
    (hrange : -2 ^ 63 ≤ minRevision ∧ minRevision < 2 ^ 63)
    (hjoined : ∀ j ∈ joined, j.count = fanned ∧ ∃ start, s.origin = some start ∧
      j.upTo = lastModRevision (s.poll.sent.take j.count).flatten start) :
    (WatchRun.start prefix_ minRevision joined).Inv cfg s fanned := by
  refine ⟨hrange, fun j hj => ?_, List.nil_sublist _, ?_, ?_⟩
  · obtain ⟨hcount, hstart⟩ := hjoined j hj
    exact ⟨hcount.le, hstart⟩
  · cases hj : joined with
    | none => exact List.Perm.refl _
    | some j =>
      have hnil : (s.poll.sent.take fanned).drop j.count = [] :=
        List.drop_eq_nil_of_le (by rw [List.length_take, (hjoined j hj).1]; omega)
      simp only [WatchRun.fed, WatchRun.start, hnil]
      exact List.Perm.refl _
  · exact .reading _ [] rfl rfl rfl (afterInv_start _ _ _ _) fun h => absurd rfl h

/-! ### watch の手 -/

theorem WatchRun.Phase.of_reading (h : w.Phase cfg hist) {call : AfterCall}
    (hpc : w.pc = .reading call) :
    w.result = [] ∧ w.taken = [] ∧ ∃ read, AfterInv cfg w.accepts w.since hist call read ∧
      (call.collector.latestRev ≠ 0 → ∀ j ∈ w.joined, j.upTo ≤ call.collector.latestRev) := by
  cases h with
  | reading call₀ read hpc₀ hresult htaken hinv hlatest =>
    obtain rfl : call = call₀ := WatchPc.reading.inj (hpc.symm.trans hpc₀)
    exact ⟨hresult, htaken, read, hinv, hlatest⟩
  | failed hpc₀ _ _ => cases hpc.symm.trans hpc₀
  | opened _ _ _ hpc₀ _ _ _ => cases hpc.symm.trans hpc₀
  | forwarding _ _ _ hpc₀ _ _ => cases hpc.symm.trans hpc₀

/-- 最初の読み出しの batch が続くとき。 -/
theorem WatchRun.Phase.reading_batch (hd : db.Holds hist)
    (hup : ∀ j ∈ w.joined, j.upTo ≤ db.getLatestRev cfg) (h : w.Phase cfg hist) {n : Nat}
    {call : AfterCall} (hpc : w.pc = .reading call)
    (hrun : (w.readBatch cfg call n db).status = .running) :
    WatchRun.Phase cfg hist { w with pc := .reading (w.readBatch cfg call n db) } := by
  obtain ⟨hresult, htaken, read, hinv, hlatest⟩ := h.of_reading hpc
  cases (hinv.batch hd n).2 with
  | compacted hc hfail hrev => exact absurd (hfail.symm.trans hrun) (by simp)
  | finished hnc t hp hevents hdone hrest => exact absurd (hdone.symm.trans hrun) (by simp)
  | continued hnc t ht hinv' hl =>
    refine .reading _ (read ++ t) rfl hresult htaken hinv' fun h0 j hj => ?_
    -- 上限が決まるのは、購読の後の snapshot を読んだときである
    have hl : (w.readBatch cfg call n db).collector.latestRev
      = if call.collector.latestRev = 0 then db.getLatestRev cfg else 0 := hl
    rw [hl] at h0 ⊢
    split at h0
    · next hz => rw [if_pos hz]; exact hup j hj
    · exact absurd rfl h0

/-- 最初の読み出しが終わるとき。読まなかった record は、上限より後ろにあるから、購読より前に配られた
event ではない。 -/
theorem WatchRun.Phase.opened_batch (hd : db.Holds hist) (h : w.Phase cfg hist) {n : Nat}
    {call : AfterCall} {events : List Event} {lastRevision : Int} (hpc : w.pc = .reading call)
    (hrun : (w.readBatch cfg call n db).status ≠ .running)
    (hstart : watchStart w.since (w.readBatch cfg call n db).collector.toResult
      (w.readBatch cfg call n db).status = .started events lastRevision) :
    WatchRun.Phase cfg hist { w with pc := .opened events lastRevision } := by
  obtain ⟨hresult, htaken, read, hinv, hlatest⟩ := h.of_reading hpc
  cases (hinv.batch hd n).2 with
  | compacted hc hfail hrev =>
    rw [show (w.readBatch cfg call n db).status = .failed .compacted from hfail] at hstart
    cases hstart
  | continued hnc t ht hinv' hl => exact absurd hinv'.running hrun
  | finished hnc t hp hevents hdone hrest =>
    rw [show (w.readBatch cfg call n db).status = .done from hdone] at hstart
    obtain ⟨rfl, rfl⟩ := WatchStart.started.inj hstart
    refine .opened _ _ (read ++ t) rfl hresult htaken ⟨hp, hevents, rfl, fun j hj r hr hle => ?_⟩
    refine (hrest r hr).resolve_right fun hb => ?_
    exact absurd (hlatest hb.1 j hj) (not_le.mpr (hb.2.trans_le hle))

/-- 配られた event は、購読の後に配られた record の event である。 -/
theorem WatchRun.Inv.fed_eq (hw : w.Inv cfg s fanned) (h : s.Exact cfg) {j : Joined}
    (hj : j ∈ w.joined) :
    w.fed s.poll.sent fanned ++ (s.poll.sent.drop fanned).flatten
      = (between RevRecord.revision s.store.committed j.upTo s.poll.handedTo).map
        (eventIn cfg s.store.committed) := by
  obtain ⟨hle, start, ho, hup⟩ := hw.joined j hj
  have hdrop := (h.drop_eq ho j.count).2
  rw [← hup] at hdrop
  have hsplit : (s.poll.sent.take fanned).drop j.count ++ s.poll.sent.drop fanned
      = s.poll.sent.drop j.count := by
    rw [List.drop_take]
    have happend := List.drop_take_append_drop s.poll.sent j.count (fanned - j.count)
    rw [Nat.add_sub_cancel' hle] at happend
    exact happend
  simp only [WatchRun.fed, show w.joined = some j from hj]
  rw [← hdrop, ← hsplit, List.flatten_append]

theorem sorted_map_eventIn {l : List RevRecord} :
    SortedBy (fun e : Event => e.kv.modRevision) (l.map (eventIn cfg hist)) ↔
      SortedBy RevRecord.revision l := by
  rw [SortedBy.map_iff]
  simp only [eventIn_modRevision]

theorem WatchRun.Inv.fed_sorted (hw : w.Inv cfg s fanned) (h : s.Exact cfg) :
    SortedBy (fun e : Event => e.kv.modRevision) (w.fed s.poll.sent fanned) := by
  cases hj : w.joined with
  | none => simp only [WatchRun.fed, hj]; exact SortedBy.nil
  | some j =>
    have hs := between_sorted h.inv.store.sorted_revision j.upTo s.poll.handedTo
    rw [← sorted_map_eventIn, ← hw.fed_eq h hj] at hs
    exact hs.sublist (List.sublist_append_left _ _)

theorem WatchRun.Inv.effect {a : WatchAction} (hw : w.Inv cfg s fanned) (h : s.Exact cfg)
    (he : WatchRun.Effect cfg s.store.db w a w') : w'.Inv cfg s fanned := by
  have hd := h.inv.store.tracks.holds
  cases he with
  | reading n call hpc hrun =>
    exact ⟨hw.range, hw.joined, hw.order, hw.pipe,
      hw.phase.reading_batch hd (fun j hj => (hw.upTo_le h hj).2) hpc hrun⟩
  | opened n call events lastRevision hpc hrun hstart =>
    exact ⟨hw.range, hw.joined, hw.order, hw.pipe, hw.phase.opened_batch hd hpc hrun hstart⟩
  | failed _ call hpc =>
    obtain ⟨hresult, htaken, -⟩ := hw.phase.of_reading hpc
    exact ⟨hw.range, hw.joined, hw.order, hw.pipe, .failed rfl hresult htaken⟩
  | filtered events rest hvalues =>
    -- batch は一つ先の段に移るだけである
    have hpassed : WatchRun.passed
        { w with values := rest, readChan := sendBatch w.readChan (w.wanted events) } = w.passed := by
      unfold WatchRun.passed
      rw [hvalues, List.flatten_cons, WatchRun.wanted_append, ← List.append_assoc, sendBatch_flatten,
        ← List.append_assoc]
      rfl
    exact ⟨hw.range, hw.joined, hpassed ▸ hw.order, hpassed ▸ hw.pipe, hw.phase.queues _ _ _⟩
  | sentInitial events lastRevision hpc =>
    refine ⟨hw.range, hw.joined, hw.order, hw.pipe, ?_⟩
    cases hw.phase with
    | opened events₀ lastRevision₀ read hpc₀ hresult htaken hstart =>
      obtain ⟨rfl, rfl⟩ := WatchPc.opened.inj (hpc.symm.trans hpc₀)
      refine .forwarding events lastRevision read rfl
        ⟨hstart.isPrefix, hstart.events_eq, hstart.last_eq, hstart.covers⟩ ?_
      rw [sendBatch_flatten, hresult, htaken]
      simp
    | reading _ _ hpc₀ _ _ _ _ => cases hpc.symm.trans hpc₀
    | failed hpc₀ _ _ => cases hpc.symm.trans hpc₀
    | forwarding _ _ _ hpc₀ _ _ => cases hpc.symm.trans hpc₀
  | forwarded lastRevision events rest hpc hread =>
    have hpassed : WatchRun.passed
        { w with
          readChan := rest
          result := sendBatch w.result (skipSent lastRevision events)
          taken := w.taken ++ events } = w.passed := by
      unfold WatchRun.passed
      rw [hread, List.flatten_cons, ← List.append_assoc]
      rfl
    -- forwarder が受け取る batch は昇順である
    have hsorted : SortedBy (fun e : Event => e.kv.modRevision) events := by
      have hs := ((hw.fed_sorted h).filter _).sublist hw.order
      rw [WatchRun.passed, hread, List.flatten_cons, ← List.append_assoc] at hs
      have hs := (SortedBy.append_iff.mp (SortedBy.append_iff.mp hs).1).1
      exact (SortedBy.append_iff.mp hs).2.1
    refine ⟨hw.range, hw.joined, hpassed ▸ hw.order, hpassed ▸ hw.pipe, ?_⟩
    cases hw.phase with
    | forwarding events₀ lastRevision₀ read hpc₀ hstart hresult =>
      obtain rfl := WatchPc.forwarding.inj (hpc.symm.trans hpc₀)
      refine .forwarding events₀ lastRevision read hpc
        ⟨hstart.isPrefix, hstart.events_eq, hstart.last_eq, hstart.covers⟩ ?_
      rw [sendBatch_flatten, hresult, skipSent_eq lastRevision hsorted, List.filter_append,
        List.append_assoc]
    | reading _ _ hpc₀ _ _ _ _ => cases hpc.symm.trans hpc₀
    | failed hpc₀ _ _ => cases hpc.symm.trans hpc₀
    | opened _ _ _ hpc₀ _ _ _ => cases hpc.symm.trans hpc₀

/-! ## run 全体 -/

theorem WatchSys.init_inv (cfg : Config) : WatchSys.init.Inv cfg :=
  ⟨Shim.init_exact cfg, le_rfl, fun _ hw => absurd hw List.not_mem_nil⟩

theorem WatchSys.inv_step {s s' : WatchSys} {a : WatchLabel} (h : s.Inv cfg)
    (ha : a.compacts = false) (hs : s.step cfg a = some s') : s'.Inv cfg := by
  cases WatchSys.step_effect hs with
  | shim a t ht =>
    have hclient : ∀ b, a = .store b → b.isClient = true := by
      rintro b rfl
      simpa [WatchLabel.compacts] using ha
    obtain ⟨hexact, hgrows⟩ := h.shim.step hclient ht
    exact ⟨hexact, h.fanned_le.trans hgrows.sent.length_le,
      fun w hw => (h.watches w hw).grows h.shim h.fanned_le hgrows⟩
  | opened prefix_ minRevision subscribed hrunning hrange =>
    refine ⟨h.shim, h.fanned_le, fun w hw => ?_⟩
    rcases List.mem_append.mp hw with hw | hw
    · exact h.watches w hw
    · obtain rfl := List.mem_singleton.mp hw
      refine WatchRun.start_inv hrange fun j hj => ?_
      cases hsub : subscribed with
      | false => simp [hsub] at hj
      | true =>
        obtain rfl : s.joined = j := by simpa [hsub] using hj
        refine ⟨rfl, ?_⟩
        -- 走っている loop には、始まった revision がある
        cases ho : s.shim.origin with
        | none => rw [h.shim.inv.fresh ho] at hrunning; exact absurd rfl (hrunning hsub)
        | some start => exact ⟨start, rfl, by simp [WatchSys.joined, ho]⟩
  | fannedOut full events hev =>
    refine ⟨h.shim, (List.getElem?_eq_some_iff.mp hev).1, fun w hw => ?_⟩
    obtain ⟨i, hi, rfl⟩ := List.mem_mapIdx.mp hw
    have hinv := h.watches _ (List.getElem_mem hi)
    split
    · exact hinv.miss hev
    · exact hinv.receive hev
  | watched i a w w' hi he =>
    refine ⟨h.shim, h.fanned_le, fun x hx => ?_⟩
    rcases List.mem_or_eq_of_mem_set hx with hx | rfl
    · exact h.watches x hx
    · exact (h.watches w (List.mem_of_getElem? hi)).effect h.shim he

theorem WatchSys.inv_run {as : List WatchLabel} {s : WatchSys}
    (hrun : runSteps (WatchSys.step cfg) .init as = some s)
    (hno : ∀ a ∈ as, a.compacts = false) : s.Inv cfg :=
  run_invariant_of (fun _ a => a.compacts = false) (P := fun s => WatchSys.Inv cfg s)
    (fun _ _ _ h ha hs => WatchSys.inv_step h ha hs) (WatchSys.init_inv cfg)
    (stepsMeet_of_forall hno) hrun

/-! ## つなぎ目 -/

section

variable {read : List RevRecord} {events : List Event} {lastRevision : Int}

/-- `lastRevision` は、合う event があれば最後のものの、なければ読み始めた位置の revision である。 -/
theorem Started.last_cases (h : Started cfg hist w read events lastRevision)
    (hs : SortedBy RevRecord.revision hist) :
    (lastRevision = w.since ∧ ∀ r ∈ read, ¬ w.accepts r.key = true) ∨
      ∃ z ∈ read, lastRevision = z.revision ∧
        ∀ r ∈ read, w.accepts r.key = true → r.revision ≤ z.revision := by
  have hlast : lastRevision
      = ((read.filter (fun r => w.accepts r.key)).getLast?.map RevRecord.revision).getD w.since := by
    rw [h.last_eq, h.events_eq]
    exact lastModRevision_map_eventIn _ _
  have hread : SortedBy RevRecord.revision (read.filter (fun r => w.accepts r.key)) :=
    ((hs.filter _).sublist h.isPrefix.sublist).filter _
  cases hz : (read.filter (fun r => w.accepts r.key)).getLast? with
  | none =>
    refine Or.inl ⟨by rw [hlast, hz]; rfl, fun r hr => ?_⟩
    exact List.filter_eq_nil_iff.mp (List.getLast?_eq_none_iff.mp hz) r hr
  | some z =>
    obtain ⟨hzmem, hmax⟩ := hread.getLast?_eq_some_iff.mp hz
    refine Or.inr ⟨z, List.mem_of_mem_filter hzmem, by rw [hlast, hz]; rfl, fun r hr hacc => ?_⟩
    exact hmax r (List.mem_filter.mpr ⟨hr, hacc⟩)

theorem WatchRun.since_lt_iff (h0 : 0 ≤ w.minRevision) {rev : Int} (hpos : 0 < rev) :
    w.since < rev ↔ w.minRevision ≤ rev := by
  unfold WatchRun.since watchMinRevision
  split
  · exact Int.sub_one_lt_iff
  · exact ⟨fun h => h.le, fun _ => by omega⟩

/-- 一つ前に直した位置より後ろの record は、`minRevision` 以上の record である。 -/
theorem WatchRun.mem_afterTodo_since (hwf : ∀ r ∈ hist, r.Wf) (h0 : 0 ≤ w.minRevision)
    (h63 : w.minRevision < 2 ^ 63) {r : RevRecord} :
    r ∈ afterTodo hist w.since none ↔ r ∈ hist ∧ w.minRevision ≤ r.revision := by
  rw [mem_afterTodo]
  refine and_congr_right fun hr => ?_
  have hsince : 0 ≤ w.since ∧ w.since < 2 ^ 63 := by
    unfold WatchRun.since watchMinRevision
    split <;> omega
  rw [(hwf r hr).int64_lt_iff hsince.1 hsince.2, w.since_lt_iff h0 (hwf r hr).rev.pos]
  exact and_iff_right (by simp)

/-- 合う record で `lastRevision` 以下のものは、最初の読み出しにあるものである。 -/
theorem Started.mem_read_iff (h : Started cfg hist w read events lastRevision)
    (hs : SortedBy RevRecord.revision hist) (hwf : ∀ r ∈ hist, r.Wf) (h0 : 0 ≤ w.minRevision)
    (h63 : w.minRevision < 2 ^ 63) {r : RevRecord} (hr : r ∈ hist)
    (hacc : w.accepts r.key = true) :
    r ∈ read ↔ w.minRevision ≤ r.revision ∧ r.revision ≤ lastRevision := by
  have htodo := fun {r} => WatchRun.mem_afterTodo_since hwf h0 h63 (r := r)
  rcases h.last_cases hs with ⟨rfl, hnone⟩ | ⟨z, hz, rfl, hmax⟩
  · refine iff_of_false (fun hm => hnone r hm hacc) fun hle => ?_
    exact absurd hle.2 (not_le.mpr ((w.since_lt_iff h0 (hwf r hr).rev.pos).mpr hle.1))
  · constructor
    · intro hm
      exact ⟨(htodo.mp (h.isPrefix.subset hm)).2, hmax r hm hacc⟩
    · rintro ⟨hmin, hle⟩
      have hsorted : SortedBy RevRecord.revision (afterTodo hist w.since none) := hs.filter _
      exact hsorted.mem_of_isPrefix h.isPrefix (htodo.mpr ⟨hr, hmin⟩) hz hle

/-- `lastRevision` より後ろの record は、`minRevision` 以上である。 -/
theorem Started.min_le_of_lt (h : Started cfg hist w read events lastRevision)
    (hs : SortedBy RevRecord.revision hist) (hwf : ∀ r ∈ hist, r.Wf) (h0 : 0 ≤ w.minRevision)
    (h63 : w.minRevision < 2 ^ 63) {r : RevRecord} (hr : r ∈ hist)
    (hlt : lastRevision < r.revision) : w.minRevision ≤ r.revision := by
  rcases h.last_cases hs with ⟨rfl, -⟩ | ⟨z, hz, rfl, -⟩
  · exact (w.since_lt_iff h0 (hwf r hr).rev.pos).mp hlt
  · exact ((WatchRun.mem_afterTodo_since hwf h0 h63).mp (h.isPrefix.subset hz)).2.trans hlt.le

/-- **つなぎ目。** 最初の読み出しの record と、購読の後に配られた record のうち `lastRevision` より後ろの
ものをつなぐと、合う record の列の先頭部分になる。 -/
theorem Started.seam (h : Started cfg hist w read events lastRevision)
    (hs : SortedBy RevRecord.revision hist) (hwf : ∀ r ∈ hist, r.Wf) (h0 : 0 ≤ w.minRevision)
    (h63 : w.minRevision < 2 ^ 63) {rs : List RevRecord} {handed : Int}
    (hrs : rs = [] ∨ ∃ j ∈ w.joined, rs <+: (between RevRecord.revision hist j.upTo handed).filter
      (fun r => w.accepts r.key)) :
    read.filter (fun r => w.accepts r.key)
        ++ rs.filter (fun r => decide (lastRevision < r.revision))
      <+: hist.filter (fun r => w.accepts r.key && decide (w.minRevision ≤ r.revision)) := by
  have hiff := fun {r} => h.mem_read_iff hs hwf h0 h63 (r := r)
  have hread : ∀ r ∈ read, r ∈ hist := fun r hr => (mem_afterTodo.mp (h.isPrefix.subset hr)).1
  have hmem : ∀ r ∈ rs, r ∈ hist ∧ w.accepts r.key = true := by
    intro r hr
    rcases hrs with rfl | ⟨j, -, hp⟩
    · cases hr
    · obtain ⟨hm, hacc⟩ := List.mem_filter.mp (hp.subset hr)
      exact ⟨(mem_between.mp hm).1, hacc⟩
  have hsorted : SortedBy RevRecord.revision rs := by
    rcases hrs with rfl | ⟨j, -, hp⟩
    · exact SortedBy.nil
    · exact ((between_sorted hs _ _).filter _).sublist hp.sublist
  refine (hs.filter _).isPrefix_of_closed (SortedBy.append_iff.mpr
    ⟨((hs.filter _).sublist h.isPrefix.sublist).filter _, hsorted.filter _, ?_⟩) ?_ ?_
  · intro x hx y hy
    obtain ⟨hx, hacc⟩ := List.mem_filter.mp hx
    exact ((hiff (hread x hx) hacc).mp hx).2.trans_lt (of_decide_eq_true (List.mem_filter.mp hy).2)
  · intro x hx
    rw [List.mem_filter, Bool.and_eq_true, decide_eq_true_eq]
    rcases List.mem_append.mp hx with hx | hx
    · obtain ⟨hx, hacc⟩ := List.mem_filter.mp hx
      exact ⟨hread x hx, hacc, ((hiff (hread x hx) hacc).mp hx).1⟩
    · obtain ⟨hx, hlt⟩ := List.mem_filter.mp hx
      obtain ⟨hxh, hacc⟩ := hmem x hx
      exact ⟨hxh, hacc, h.min_le_of_lt hs hwf h0 h63 hxh (of_decide_eq_true hlt)⟩
  · intro z hz x hx hle
    rw [List.mem_filter, Bool.and_eq_true, decide_eq_true_eq] at hx
    obtain ⟨hxh, hacc, hmin⟩ := hx
    by_cases hlast : x.revision ≤ lastRevision
    · exact List.mem_append_left _ (List.mem_filter.mpr ⟨(hiff hxh hacc).mpr ⟨hmin, hlast⟩, hacc⟩)
    · -- `x` は最初の読み出しになく、したがって購読の後に配られている
      rw [not_le] at hlast
      refine List.mem_append_right _ (List.mem_filter.mpr ⟨?_, decide_eq_true hlast⟩)
      have hzrs : z ∈ rs := by
        rcases List.mem_append.mp hz with hz | hz
        · obtain ⟨hz, hzacc⟩ := List.mem_filter.mp hz
          have hzle := ((hiff (hread z hz) hzacc).mp hz).2
          exact absurd (hle.trans hzle) (not_le.mpr hlast)
        · exact List.mem_of_mem_filter hz
      rcases hrs with rfl | ⟨j, hj, hp⟩
      · cases hzrs
      · have hup : j.upTo < x.revision := by
          by_contra hup
          have hxread := h.covers j hj x
            ((WatchRun.mem_afterTodo_since hwf h0 h63).mpr ⟨hxh, hmin⟩) (not_lt.mp hup)
          exact absurd ((hiff hxh hacc).mp hxread).2 (not_le.mpr hlast)
        have hhanded := (mem_between.mp (List.mem_of_mem_filter (hp.subset hzrs))).2.2
        refine ((between_sorted hs _ _).filter _).mem_of_isPrefix hp (List.mem_filter.mpr ⟨?_, hacc⟩)
          hzrs hle
        exact mem_between.mpr ⟨hxh, hup, hle.trans hhanded⟩

end

/-- forwarder が受け取った event の record。購読の後に配られた合う record の先頭部分である。 -/
theorem WatchRun.Inv.taken_eq (hw : w.Inv cfg s fanned) (h : s.Exact cfg) (hm : w.missed = []) :
    ∃ rs, w.taken = rs.map (eventIn cfg s.store.committed) ∧ (rs = [] ∨ ∃ j ∈ w.joined,
      rs <+: (between RevRecord.revision s.store.committed j.upTo s.poll.handedTo).filter
        (fun r => w.accepts r.key)) := by
  have hpipe := hw.passed_eq hm
  cases hj : w.joined with
  | none =>
    have hnil : w.passed = [] := by
      rw [hpipe]
      simp only [WatchRun.fed, hj]
      rfl
    refine ⟨[], ?_, Or.inl rfl⟩
    exact (List.append_eq_nil_iff.mp (List.append_eq_nil_iff.mp hnil).1).1
  | some j =>
    have hfed := congrArg w.wanted (hw.fed_eq h hj)
    rw [WatchRun.wanted_append, ← hpipe] at hfed
    have hmap : w.wanted ((between RevRecord.revision s.store.committed j.upTo
        s.poll.handedTo).map (eventIn cfg s.store.committed))
        = ((between RevRecord.revision s.store.committed j.upTo s.poll.handedTo).filter
          (fun r => w.accepts r.key)).map (eventIn cfg s.store.committed) := by
      unfold WatchRun.wanted innerWatchEvents
      rw [List.filter_map]
      refine congrArg _ (List.filter_congr fun r _ => ?_)
      simp only [Function.comp_apply, eventIn_key]
      rfl
    rw [hmap, WatchRun.passed, List.append_assoc, List.append_assoc] at hfed
    have hp : w.taken <+: _ := ⟨_, hfed⟩
    rw [List.prefix_iff_eq_take, ← List.map_take] at hp
    exact ⟨_, hp, Or.inr ⟨j, rfl, List.take_prefix _ _⟩⟩

/-- 送った event の record は、合う record の列の先頭部分である。 -/
theorem WatchRun.Inv.delivered (hw : w.Inv cfg s fanned) (h : s.Exact cfg) (hm : w.missed = [])
    (h0 : 0 ≤ w.minRevision) :
    ∃ rs, w.result.flatten = rs.map (eventIn cfg s.store.committed) ∧
      rs <+: s.store.committed.filter
        (fun r => w.accepts r.key && decide (w.minRevision ≤ r.revision)) := by
  have hs := h.inv.store.sorted_revision
  have hwf := h.inv.store.tracks.holds.wf
  have hnil : w.result = [] → ∃ rs, w.result.flatten = rs.map (eventIn cfg s.store.committed) ∧
      rs <+: s.store.committed.filter
        (fun r => w.accepts r.key && decide (w.minRevision ≤ r.revision)) := fun hr =>
    ⟨[], by rw [hr]; rfl, List.nil_prefix⟩
  cases hw.phase with
  | reading _ _ _ hresult _ _ _ => exact hnil hresult
  | failed _ hresult _ => exact hnil hresult
  | opened _ _ _ _ hresult _ _ => exact hnil hresult
  | forwarding events lastRevision read hpc hstart hresult =>
    obtain ⟨rs, htaken, hrs⟩ := hw.taken_eq h hm
    refine ⟨_, ?_, hstart.seam hs hwf h0 hw.range.2 hrs⟩
    rw [hresult, htaken, hstart.events_eq, List.map_append, List.filter_map]
    refine congrArg _ (congrArg _ (List.filter_congr fun r _ => ?_))
    simp only [Function.comp_apply, eventIn_modRevision]

theorem exactStream_of_isPrefix {accepts : Key → Bool} {minRevision : Int} {rs : List RevRecord}
    (hs : SortedBy RevRecord.revision hist)
    (hp : rs <+: hist.filter (fun r => accepts r.key && decide (minRevision ≤ r.revision))) :
    ExactStream cfg hist accepts minRevision (rs.map (eventIn cfg hist)) where
  increasing := sorted_map_eventIn.mpr ((hs.filter _).sublist hp.sublist)
  accepted := by
    intro e he
    obtain ⟨r, hr, rfl⟩ := List.mem_map.mp he
    rw [eventIn_key]
    exact (Bool.and_eq_true_iff.mp (List.mem_filter.mp (hp.subset hr)).2).1
  complete := by
    intro last hlast
    rw [Option.mem_def, List.getLast?_map] at hlast
    obtain ⟨z, hz, rfl⟩ := Option.map_eq_some_iff.mp hlast
    refine congrArg _ ?_
    rw [(hs.filter _).isPrefix_eq_atMost hp hz, atMost, List.filter_filter]
    refine List.filter_congr fun r _ => ?_
    rw [eventIn_modRevision, Bool.and_comm]

/-- **compaction のない run のどの状態でも、broadcaster に打ち切られていない watch が送った event は、最後に送った
revision までに commit された `minRevision` 以上の合う event を、ちょうど一度ずつ順に並べたものである。** NUL 一文字の
prefix は `/` と読み、`minRevision` は負でないとする。ほかの watch は打ち切られていてもよい。 -/
theorem watch_stream_exact (cfg : Config) {as : List WatchLabel} {s : WatchSys}
    (hrun : runSteps (WatchSys.step cfg) .init as = some s)
    (hno : ∀ a ∈ as, a.compacts = false) :
    ∀ w ∈ s.watches, w.missed = [] → 0 ≤ w.minRevision →
      ExactStream cfg s.shim.store.committed
        (fun key => doesEventHavePrefix key (watchPrefix w.prefix_)) w.minRevision
        w.result.flatten := by
  intro w hw hm h0
  have h := WatchSys.inv_run hrun hno
  obtain ⟨rs, hrs, hp⟩ := (h.watches w hw).delivered h.shim hm h0
  rw [hrs]
  exact exactStream_of_isPrefix h.shim.inv.store.sorted_revision hp

/-- 最初の読み出しと loop が、同じ event を読む run。 -/
def streamedRun : List WatchLabel :=
  [.shim (.poll .connect), .shim (.poll .begin_),
    .shim (.store (.write (.create [47, 97] [1] 0) 0 1 2)), .open_ [47] 0 true,
    .shim (.store (.write (.create [47, 98] [1] 0) 0 2 3)), .shim (.poll (.read 5)),
    .watch 0 (.read 0), .shim (.store (.write (.update [47, 97] [2] 2 0) 0 3 4)),
    .watch 0 (.read 5), .shim (.poll .apply), .shim (.poll .hand), .fanOut [], .watch 0 .filter,
    .shim (.poll .advance), .watch 0 .sendInitial, .watch 0 .forward, .shim (.poll (.read 5)),
    .shim (.poll .apply), .shim (.poll .hand), .fanOut [], .watch 0 .filter, .watch 0 .forward]

/-- 二度読まれた event も、一度だけ届く。 -/
theorem watch_stream_exact_of_streamed :
    ∃ s, runSteps (WatchSys.step .default) .init streamedRun = some s ∧
      s.watches.map (fun w => w.result.flatten.map (fun e => e.kv.modRevision)) = [[2, 3, 4]] ∧
      ∀ w ∈ s.watches, ExactStream .default s.shim.store.committed
        (fun key => doesEventHavePrefix key (watchPrefix w.prefix_)) w.minRevision
        w.result.flatten := by
  have h : (runSteps (WatchSys.step .default) .init streamedRun).any (fun s =>
      decide (s.watches.map (fun w => w.result.flatten.map (fun e => e.kv.modRevision))
        = [[2, 3, 4]] ∧ ∀ w ∈ s.watches, w.missed = [] ∧ 0 ≤ w.minRevision)) = true := by
    decide +kernel
  obtain ⟨s, hs, hresult, hmin⟩ := exists_of_any_decide h
  exact ⟨s, hs, hresult,
    fun w hw => watch_stream_exact .default hs (by decide) w hw (hmin w hw).1 (hmin w hw).2⟩

/-- NUL 一文字の prefix の watch。 -/
def nullPrefixRun : List WatchLabel :=
  [.shim (.store (.write (.create [47, 97] [1] 0) 0 1 2)), .shim (.poll .connect),
    .open_ [0] 0 true, .watch 0 (.read 5), .watch 0 .sendInitial]

/-- 負の `minRevision` の watch。versionstamp に直すと最大の revision より後ろになり、最初の読み出しは何も
読まない。 -/
def negativeRun : List WatchLabel :=
  [.shim (.store (.write (.create [47, 97] [1] 0) 0 1 2)), .shim (.poll .connect),
    .open_ [47] (-1) true, .watch 0 (.read 5), .watch 0 .sendInitial, .shim (.poll .begin_),
    .shim (.store (.write (.create [47, 98] [1] 0) 0 2 3)), .shim (.poll (.read 5)),
    .shim (.poll .apply), .shim (.poll .hand), .fanOut [], .watch 0 .filter, .watch 0 .forward]

/-- NUL 一文字の prefix では `/` の下の鍵が届き、負の `minRevision` では購読より前の event が届かない。 -/
theorem null_prefix_and_negative_minRevision :
    (∃ s, runSteps (WatchSys.step .default) .init nullPrefixRun = some s ∧
      (∀ a ∈ nullPrefixRun, a.compacts = false) ∧
      ∃ w ∈ s.watches, ¬ ExactStream .default s.shim.store.committed
        (fun key => doesEventHavePrefix key w.prefix_) w.minRevision w.result.flatten) ∧
    (∃ s, runSteps (WatchSys.step .default) .init negativeRun = some s ∧
      (∀ a ∈ negativeRun, a.compacts = false) ∧
      ∃ w ∈ s.watches, ¬ ExactStream .default s.shim.store.committed
        (fun key => doesEventHavePrefix key w.prefix_) w.minRevision w.result.flatten) := by
  have h₁ : (runSteps (WatchSys.step .default) .init nullPrefixRun).any (fun s =>
      decide (∃ w ∈ s.watches, ¬ ExactStream .default s.shim.store.committed
        (fun key => doesEventHavePrefix key w.prefix_) w.minRevision w.result.flatten)) = true := by
    decide +kernel
  have h₂ : (runSteps (WatchSys.step .default) .init negativeRun).any (fun s =>
      decide (∃ w ∈ s.watches, ¬ ExactStream .default s.shim.store.committed
        (fun key => doesEventHavePrefix key w.prefix_) w.minRevision w.result.flatten)) = true := by
    decide +kernel
  obtain ⟨s₁, hs₁, h₁⟩ := exists_of_any_decide h₁
  obtain ⟨s₂, hs₂, h₂⟩ := exists_of_any_decide h₂
  exact ⟨⟨s₁, hs₁, by decide, h₁⟩, ⟨s₂, hs₂, by decide, h₂⟩⟩

end KubeFdb
