import KubeFdb.Lib.OrdMap
import KubeFdb.Lib.Tuple
import Mathlib.Data.Prod.Lex
import Mathlib.Data.List.Lex
import Mathlib.Order.WithBot

/-!
# revision と record

driver が扱う値の定義。`util.go`、`fdb_subspace_by_revision.go`、
`fdb_subspace_by_key_revision.go` の型に対応する。

## versionstamp

FDB の versionstamp は 12 byte である。先頭 8 byte が commit version、次の 2 byte が
commit batch の中の番号、最後の 2 byte が user version になる。順序は byte 列の辞書式順序で、
big-endian の整数として読んだ `Versionstamp.toNat` の順序に等しい。

すべての書き込みは `setFirstInBatch` を経るので commit batch の中の番号は 0 になる。
`VersionstampToInt64` の panic（番号が 0 でも 0xFFFF でもないとき）はここで起きない。
store に入る versionstamp は `commitStamp` と `int64ToVersionstamp` が作るものだけである。
-/

namespace KubeFdb

open Tuple

/-- Go の string。任意の byte 列を取る。 -/
abbrev Key := Bytes

/-- `createUUID` の 16 byte。等しいかどうかしか使わない。 -/
abbrev UUID := Nat

/-! ## versionstamp -/

structure Versionstamp where
  txVersion : Nat
  idInCommit : Fin 65536
  userVersion : Fin 65536
deriving DecidableEq, Repr

namespace Versionstamp

/-- packed な 12 byte を big-endian の整数として読んだもの。 -/
def toNat (v : Versionstamp) : Nat :=
  v.txVersion * 2 ^ 32 + v.idInCommit.val * 2 ^ 16 + v.userVersion.val

theorem toNat_injective : Function.Injective toNat := by
  rintro ⟨a, b, c⟩ ⟨a', b', c'⟩ h
  simp only [toNat] at h
  have hb := b.isLt
  have hc := c.isLt
  have hb' := b'.isLt
  have hc' := c'.isLt
  have h1 : a = a' := by omega
  have h2 : b = b' := Fin.ext (by omega)
  have h3 : c = c' := Fin.ext (by omega)
  rw [h1, h2, h3]

instance : LinearOrder Versionstamp := LinearOrder.lift' toNat toNat_injective

theorem lt_iff {v w : Versionstamp} : v < w ↔ v.toNat < w.toNat := Iff.rfl

end Versionstamp

/-- Go の `int64(n)`（`n` は uint64）。 -/
def toInt64 (n : Nat) : Int := if n < 2 ^ 63 then n else n - 2 ^ 64

/-- Go の `uint64(rev)`（`rev` は int64）。 -/
def toUint64 (rev : Int) : Nat := (rev % 2 ^ 64).toNat

/-- `VersionstampToInt64`。 -/
def versionstampToInt64 (v : Versionstamp) : Int := toInt64 v.txVersion

/-- `int64ToVersionstamp`。 -/
def int64ToVersionstamp (rev : Int) : Versionstamp := ⟨toUint64 rev, 0, 0⟩

/-- commit version `v` の transaction が得る versionstamp。 -/
def commitStamp (v : Nat) : Versionstamp := ⟨v, 0, 0⟩

/-- `dummyVersionstamp`。`createDummyVersionstamp` は不完全な versionstamp の
先頭 8 byte を 0 にするので、番号の 2 byte は 0xFFFF のまま残る。 -/
def dummyVersionstamp : Versionstamp := ⟨0, 0xFFFF, 123⟩

/-! ## record -/

structure Record where
  key : Key
  isDelete : Bool
  isCreate : Bool
  lease : Int
  createRevision : Versionstamp
  prevRevision : Versionstamp
  valueSize : Nat
  writeUUID : UUID
  value : Bytes
  /-- 走査のあいだだけの印。保存されない。 -/
  latestForKey : Bool
deriving DecidableEq, Repr

structure RevRecord where
  rev : Versionstamp
  record : Record
deriving DecidableEq, Repr

namespace RevRecord

abbrev key (r : RevRecord) : Key := r.record.key

/-- `RevRecord.GetCreateRevision`。 -/
def getCreateRevision (r : RevRecord) : Versionstamp :=
  if r.record.isCreate then r.rev else r.record.createRevision

end RevRecord

/-! ## server 側の型 -/

structure KeyValue where
  key : Key
  createRevision : Int
  modRevision : Int
  lease : Int
  value : Bytes
deriving DecidableEq, Repr

structure Event where
  create : Bool
  delete : Bool
  kv : KeyValue
  prevKV : Option KeyValue
deriving DecidableEq, Repr

/-- 実行時の設定。`maxBatchSize` は poll が一度に読む event の数で、0 は上限なしになる。
ほかの二つは test 用の旗である。 -/
structure Config where
  useSequentialId : Bool
  apiTest : Bool
  maxBatchSize : Nat
deriving DecidableEq, Repr

/-- 既定の設定。 -/
def Config.default : Config := ⟨false, false, 1000⟩

/-- `revRecordToEvent`。`PrevKV` はここでは `ModRevision` だけを持つ。 -/
def revRecordToEvent (cfg : Config) (r : RevRecord) : Event :=
  { create := r.record.isCreate
    delete := r.record.isDelete
    kv :=
      { key := r.record.key
        createRevision := versionstampToInt64 r.getCreateRevision
        modRevision := versionstampToInt64 r.rev
        lease := r.record.lease
        value := if cfg.apiTest && r.record.isDelete then [] else r.record.value }
    prevKV :=
      if r.record.prevRevision ≠ dummyVersionstamp then
        some
          { key := [], createRevision := 0
            modRevision := versionstampToInt64 r.record.prevRevision
            lease := 0, value := [] }
      else none }

/-- driver の関数が返す error。最後の二つは Go の panic で、nil の参照と、`make` の大きすぎる容量である。 -/
inductive Err where
  | keyExists
  | requestTooLarge
  | compacted
  | futureRev
  | noRecordsInByRevIterator
  | prefixNotStartKey
  | invalidRangeEnd
  | parseChunkAsHeader
  | nilDereference
  | capOutOfRange
deriving DecidableEq, Repr

end KubeFdb
