import Mathlib.Tactic

/-!
# transaction のやり直し

`fdb_util.go` の `transact`、`retryable`、`panicToError`。

`transact` は closure `wrapped` を作り、`retryable` がそれを繰り返し呼ぶ。FDB の client と、渡された closure `f` が
一回の試みで返すものを `Attempt` で受け取る。試みの列が尽きたら、まだやり直している途中である。

error は三つの変数を通る。

* `transact` の `e` — `wrapped` の外にあり、`SetRetryLimit` と `SetReportConflictingKeys` の結果が入る。
  `panicToError` が書くのもこれである
* `wrapped` の中の `e` — `ret, e := f(tr)` が宣言し、外の `e` を隠す
* `retryable` の `e` — `wrapped` の結果が入る

`wrapped` の結果には名前がない。`recover` で panic から戻ると、結果は型の零値になる。
-/

namespace KubeFdb

/-- Go の error。`fmt.Errorf` の `%w` は、中の error を残して包む。 -/
inductive GoError where
  | plain (msg : String)
  /-- `fdb.Error`。 -/
  | fdb (code : Nat)
  | wrap (msg : String) (inner : GoError)
deriving DecidableEq, Repr

/-- `errors.As` で `fdb.Error` を探す。 -/
def GoError.asFdb : GoError → Option Nat
  | .plain _ => none
  | .fdb code => some code
  | .wrap _ inner => inner.asFdb

/-- `notCommittedErrorCode`。 -/
def notCommittedErrorCode : Nat := 1020

/-- `forceRetryTransaction`。test だけが差し替える。 -/
def forceRetryTransaction (_ : Nat) : Bool := false

/-- closure `f` の終わり方。 -/
inductive ClosureOutcome (T : Type) where
  | returned (ret : T) (e : Option GoError)
  /-- `fdb.Error` の panic。 -/
  | panicFdb (code : Nat)
  /-- ほかの値の panic。 -/
  | panicOther (msg : String)
deriving DecidableEq, Repr

/-- 一回の試みで FDB の client と closure が返すもの。`none` は nil である。 -/
structure Attempt (T : Type) where
  setTimeout : Option GoError
  setRetryLimit : Option GoError
  setReportConflictingKeys : Option GoError
  closure : ClosureOutcome T
  /-- `Commit` の `fdb.Error`。 -/
  commit : Option Nat
  /-- `LogConflictingKeys` のときの、衝突した鍵の読み出しの error。 -/
  conflictingKeys : Option GoError
  /-- `OnError` が返す error。`none` ならやり直す。 -/
  onError : Option GoError
deriving DecidableEq, Repr

/-- `wrapped` の終わり方。 -/
inductive WrappedResult (T : Type) where
  | returned (ret : T) (e : Option GoError)
  | panicked (msg : String)
deriving DecidableEq, Repr

/-- `transact` の引数と旗。`zero` は `T` の零値である。 -/
structure TransactParams (T : Type) where
  zero : T
  defaultValue : T
  logConflictingKeys : Bool

variable {T : Type} (params : TransactParams T)

/-- 衝突した鍵を log に出す。読み出しに失敗すれば、その error に替わる。 -/
def Attempt.report (a : Attempt T) (e : Option GoError) : Option GoError :=
  if params.logConflictingKeys ∧ e.bind GoError.asFdb = some notCommittedErrorCode then
    match a.conflictingKeys with
    | some err => some err
    | none => e
  else e

/-- `transact` の `wrapped`。`e` は外の変数で、呼び出しの後の値と組にして返す。 -/
def Attempt.wrapped (a : Attempt T) (e : Option GoError) : WrappedResult T × Option GoError :=
  match a.setTimeout with
  | some err => (.returned params.defaultValue (some (.wrap "failed to set timeout limit" err)), e)
  | none =>
  match a.setRetryLimit with
  | some err =>
    (.returned params.defaultValue (some (.wrap "failed to set timeout limit" err)), some err)
  | none =>
  match (if params.logConflictingKeys then a.setReportConflictingKeys else none) with
  | some err =>
    (.returned params.defaultValue (some (.wrap "failed to set conflicint keys option" err)), some err)
  | none =>
  match a.closure with
  -- `panicToError` は外の `e` に書き、無名の結果は零値のまま返る
  | .panicFdb code => (.returned params.zero none, some (.fdb code))
  | .panicOther msg => (.panicked msg, none)
  | .returned ret none => (.returned ret (a.report params (a.commit.map GoError.fdb)), none)
  | .returned ret (some err) => (.returned ret (a.report params (some err)), none)

/-- `transact` の終わり方。 -/
inductive TransactOutcome (T : Type) where
  | returned (ret : T) (e : Option GoError)
  | panicked (msg : String)
  /-- 与えた試みを使い切り、次の試みに移る。 -/
  | retrying
deriving DecidableEq, Repr

/-- `transact` の実行。行った試みには、`OnError` に渡した code を添える。 -/
structure TransactRun (T : Type) where
  outcome : TransactOutcome T
  made : List (Attempt T × Option Nat)
deriving DecidableEq, Repr

/-- `retryable`。`i` は回数、`e` は `transact` の変数である。 -/
def retryable (i : Nat) (e : Option GoError) : List (Attempt T) → TransactRun T
  | [] => ⟨.retrying, []⟩
  | a :: rest =>
    match a.wrapped params e with
    | (.panicked msg, _) => ⟨.panicked msg, [(a, none)]⟩
    | (.returned ret err, e') =>
      match (if forceRetryTransaction i then some (.fdb 1021) else err) with
      | none => ⟨.returned ret none, [(a, none)]⟩
      | some err =>
        match err.asFdb with
        | none => ⟨.returned ret (some err), [(a, none)]⟩
        | some code =>
          match a.onError with
          | some refused => ⟨.returned ret (some refused), [(a, some code)]⟩
          | none =>
            let run := retryable (i + 1) e' rest
            { run with made := (a, some code) :: run.made }

/-- `transact`。`create` は `CreateTransaction` の error である。 -/
def transact (create : Option GoError) (attempts : List (Attempt T)) : TransactRun T :=
  match create with
  | some e => ⟨.returned params.defaultValue (some (.wrap "failed to create a transaction" e)), []⟩
  | none => retryable params 0 none attempts

end KubeFdb
