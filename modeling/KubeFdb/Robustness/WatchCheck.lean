import KubeFdb.Robustness.ReplayEvents

/-!
# watch の検査

`test/robustness/validate/watch.go`。client の report の watch を、log の再生と比べる。どの検査も report の watch を
すべて見て、見つけた違反を覚えておき、最後に返す。再生にない revision の状態を求めると panic する。

`matches_` は etcd の `Event.Match`、`zeroValue` は値の零値である。どちらも etcd の側にある。
-/

namespace KubeFdb.Robustness

variable {V O : Type}

/-! ## 結果 -/

/-- 破られた保証。 -/
inductive Guarantee where
  | filter
  | ordered
  | unique
  | atomic
  | bookmarkable
  | resumable
  | isCreate
  | reliable
  | prevKV
deriving DecidableEq, Repr

inductive WatchFailure where
  | broke (g : Guarantee)
  | panic (e : ReplayErr)
deriving DecidableEq, Repr

/-- 違反があれば `err` を書き換える。 -/
def flag (g : Guarantee) (bad : Bool) (err : Option Guarantee) : Option Guarantee :=
  if bad then some g else err

/-- watch に届いた event を、届いた順に並べたもの。 -/
def WatchOperation.events (op : WatchOperation V) : List (WatchEvent V) :=
  op.responses.flatMap WatchResponse.events

/-! ## event だけを見る検査 -/

/-- `validateFilter`。 -/
def validateFilter (matches_ : PersistedEvent V → WatchRequest → Bool) (report : ClientReport V O) :
    Option Guarantee :=
  report.watch.foldl (fun err watch => watch.events.foldl
    (fun err event => flag .filter (!matches_ event.toPersistedEvent watch.request) err) err) none

/-- `validateOrdered` の event 一つ。 -/
def orderedStep (acc : Int × Option Guarantee) (event : WatchEvent V) : Int × Option Guarantee :=
  (event.revision, flag .ordered (decide (event.revision < acc.1)) acc.2)

/-- `validateOrdered`。 -/
def validateOrdered (report : ClientReport V O) : Option Guarantee :=
  report.watch.foldl (fun err op => (op.events.foldl orderedStep (1, err)).2) none

/-- `validateUnique` の、event を区別する組。revision が一意のはずなら、鍵は見ない。 -/
def uniqueKey (expectUniqueRevision : Bool) (event : WatchEvent V) : Int × Option Key :=
  (event.revision, if expectUniqueRevision then none else some event.key)

/-- `validateUnique` の event 一つ。 -/
def uniqueStep (expectUniqueRevision : Bool) (acc : List (Int × Option Key) × Option Guarantee)
    (event : WatchEvent V) : List (Int × Option Key) × Option Guarantee :=
  (uniqueKey expectUniqueRevision event :: acc.1,
    flag .unique (acc.1.contains (uniqueKey expectUniqueRevision event)) acc.2)

/-- `validateUnique`。 -/
def validateUnique (expectUniqueRevision : Bool) (report : ClientReport V O) : Option Guarantee :=
  report.watch.foldl
    (fun err op => (op.events.foldl (uniqueStep expectUniqueRevision) ([], err)).2) none

/-- `validateAtomic` の応答一つ。 -/
def atomicStep (acc : Int × Option Guarantee) (resp : WatchResponse V) : Int × Option Guarantee :=
  match resp.events.head?, resp.events.getLast? with
  | some first, some last =>
    (last.revision, flag .atomic (decide (first.revision = acc.1)) acc.2)
  | _, _ => acc

/-- `validateAtomic`。 -/
def validateAtomic (report : ClientReport V O) : Option Guarantee :=
  report.watch.foldl (fun err op => (op.responses.foldl atomicStep (1, err)).2) none

/-- `validateBookmarkable` の変数。 -/
structure BookmarkState where
  lastProgressNotifyRevision : Int
  lastEventRevision : Int
  err : Option Guarantee

/-- `validateBookmarkable` の event 一つ。 -/
def bookmarkEvent (acc : BookmarkState) (event : WatchEvent V) : BookmarkState :=
  { acc with
    lastEventRevision := event.revision
    err := flag .bookmarkable (decide (event.revision ≤ acc.lastProgressNotifyRevision)) acc.err }

/-- `validateBookmarkable` の応答一つ。 -/
def bookmarkStep (acc : BookmarkState) (resp : WatchResponse V) : BookmarkState :=
  let acc := resp.events.foldl bookmarkEvent acc
  if resp.isProgressNotify then
    { acc with
      lastProgressNotifyRevision := resp.revision
      err := flag .bookmarkable (decide (resp.revision < acc.lastEventRevision))
        (flag .bookmarkable (decide (resp.revision < acc.lastProgressNotifyRevision)) acc.err) }
  else acc

/-- `validateBookmarkable`。 -/
def validateBookmarkable (report : ClientReport V O) : Option Guarantee :=
  report.watch.foldl (fun err op => (op.responses.foldl bookmarkStep ⟨0, 0, err⟩).err) none

/-! ## 再生と比べる検査 -/

/-- `firstExpectedRevision`。 -/
def firstExpectedRevision (op : WatchOperation V) : Int :=
  if op.request.revision ≠ 0 then op.request.revision
  else
    match op.responses.head? with
    | none => 0
    | some firstResp =>
      if firstResp.isProgressNotify then firstResp.revision + 1
      else
        match firstResp.events.head? with
        | none => 0
        | some event => event.revision

/-- `lastRevision` の、応答一つの revision。 -/
def WatchResponse.lastRevision? (resp : WatchResponse V) : Option Int :=
  if resp.isProgressNotify then some resp.revision
  else resp.events.getLast?.map (fun event => event.revision)

/-- `lastRevision`。 -/
def lastRevision (op : WatchOperation V) : Int :=
  (op.responses.reverse.findSome? WatchResponse.lastRevision?).getD 0

/-- `validateReliable` の、届くはずの event。 -/
def wantEvents (matches_ : PersistedEvent V → WatchRequest → Bool) (request : WatchRequest)
    (firstRev lastRev : Int) : List (PersistedEvent V) → List (PersistedEvent V)
  | [] => []
  | e :: events =>
    if e.revision < firstRev then wantEvents matches_ request firstRev lastRev events
    else if lastRev < e.revision then []
    else if matches_ e request then
      e :: wantEvents matches_ request firstRev lastRev events
    else wantEvents matches_ request firstRev lastRev events

section

variable [DecidableEq V]

/-- `validateReliable`。 -/
def validateReliable (matches_ : PersistedEvent V → WatchRequest → Bool) (replay : EtcdReplay V)
    (report : ClientReport V O) : Option Guarantee :=
  report.watch.foldl (fun err watch =>
    let firstRev := firstExpectedRevision watch
    let want :=
      if firstRev ≠ 0 then
        wantEvents matches_ watch.request firstRev (lastRevision watch)
          (replay.eventsForWatch matches_ watch.request)
      else []
    let got := watch.events.map WatchEvent.toPersistedEvent
    flag .reliable (decide (want ≠ got)) err) none

/-- `validateResumable`。 -/
def validateResumable (matches_ : PersistedEvent V → WatchRequest → Bool) (replay : EtcdReplay V)
    (report : ClientReport V O) : Option Guarantee :=
  report.watch.foldl (fun err watch =>
    if watch.request.revision = 0 then err
    else
      match ((replay.eventsForWatch matches_ watch.request).dropWhile (fun e =>
          decide (e.revision < watch.request.revision) || !matches_ e watch.request)).head?,
        watch.events.head? with
      | some event, some firstEvent =>
        flag .resumable (decide (event ≠ firstEvent.toPersistedEvent)) err
      | _, _ => err) none

/-- `validatePrevKV` の event 一つ。 -/
def prevKVStep (zeroValue : V) (replay : EtcdReplay V) (err : Option Guarantee)
    (event : WatchEvent V) : Except ReplayErr (Option Guarantee) :=
  (replay.stateForRevision (event.revision - 1)).map (fun state =>
    match event.prevValue with
    | none => err
    | some prevValue =>
      flag .prevKV (decide (prevValue ≠
        { (state.keyValues.get? event.key).getD ⟨zeroValue, 0, 0⟩ with version := 0 })) err)

/-- `validatePrevKV`。 -/
def validatePrevKV (zeroValue : V) (replay : EtcdReplay V) (report : ClientReport V O) :
    Except ReplayErr (Option Guarantee) :=
  report.watch.foldlM (fun err op =>
    if op.request.withPrevKV then op.events.foldlM (prevKVStep zeroValue replay) err
    else .ok err) none

end

/-- `validateIsCreate` の event 一つ。 -/
def isCreateStep (replay : EtcdReplay V) (err : Option Guarantee) (event : WatchEvent V) :
    Except ReplayErr (Option Guarantee) :=
  (replay.stateForRevision (event.revision - 1)).map (fun state =>
    flag .isCreate (event.isCreate == (state.keyValues.get? event.key).isSome) err)

/-- `validateIsCreate`。 -/
def validateIsCreate (replay : EtcdReplay V) (report : ClientReport V O) :
    Except ReplayErr (Option Guarantee) :=
  report.watch.foldlM (fun err op => op.events.foldlM (isCreateStep replay) err) none

/-! ## 全体 -/

/-- 検査の結果を返す。 -/
def raise : Option Guarantee → Except WatchFailure Unit
  | none => .ok ()
  | some g => .error (.broke g)

/-- panic するかもしれない検査の結果を返す。 -/
def raiseOrPanic : Except ReplayErr (Option Guarantee) → Except WatchFailure Unit
  | .ok err => raise err
  | .error e => .error (.panic e)

/-- `validateWatchError` の report 一つ。 -/
def validateReport [DecidableEq V] (matches_ : PersistedEvent V → WatchRequest → Bool)
    (zeroValue : V) (expectRevisionUnique : Bool) (replay : EtcdReplay V)
    (report : ClientReport V O) : Except WatchFailure Unit := do
  raise (validateFilter matches_ report)
  raise (validateOrdered report)
  raise (validateUnique expectRevisionUnique report)
  raise (validateAtomic report)
  raise (validateBookmarkable report)
  raise (validateResumable matches_ replay report)
  raiseOrPanic (validateIsCreate replay report)
  raise (validateReliable matches_ replay report)
  raiseOrPanic (validatePrevKV zeroValue replay report)

/-- `validateWatchError`。 -/
def validateWatchError [DecidableEq V] (matches_ : PersistedEvent V → WatchRequest → Bool)
    (zeroValue : V) (expectRevisionUnique : Bool) (reports : List (ClientReport V O))
    (replay : EtcdReplay V) : Except WatchFailure Unit :=
  reports.forM (validateReport matches_ zeroValue expectRevisionUnique replay)

end KubeFdb.Robustness
