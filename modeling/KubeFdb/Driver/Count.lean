import KubeFdb.Driver.Watch

/-!
# 数の追跡

`fdb_count.go` の `countTracker`。prefix ごとに生きている鍵の数を持ち、poll が読んだ event で
増減させる。`map[string]*countEntry` の走査の順は結果に現れないので、鍵の昇順の写像で表す。
-/

namespace KubeFdb

open Tuple

structure CountEntry where
  count : Int
  seedRev : Int
deriving DecidableEq, Repr

/-- event 一つで entry を増減させる。 -/
def CountEntry.apply (event : Event) (prefix_ : Key) (e : CountEntry) : CountEntry :=
  if event.kv.modRevision ≤ e.seedRev || !doesEventHavePrefix event.kv.key prefix_ then e
  else if event.create then { e with count := e.count + 1 }
  else { e with count := e.count - 1 }

abbrev CountTracker := OrdMap Key CountEntry

namespace CountTracker

/-- `countTracker.seed`。すでに entry があれば残す。 -/
def seed (t : CountTracker) (prefix_ : Key) (count seedRev : Int) : CountTracker :=
  match t.get? prefix_ with
  | some _ => t
  | none => t.set prefix_ ⟨count, seedRev⟩

/-- `countTracker.apply` の loop 一回分。更新だけの event は飛ばす。 -/
def applyEvent (t : CountTracker) (event : Event) : CountTracker :=
  if !event.create && !event.delete then t else t.mapValues (CountEntry.apply event)

/-- `countTracker.apply`。 -/
def apply (t : CountTracker) (events : List Event) : CountTracker := events.foldl applyEvent t

end CountTracker

end KubeFdb
