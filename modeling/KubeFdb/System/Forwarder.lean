import KubeFdb.Driver.Watch

/-!
# forwarder の停止

`Watch` の forwarder は、`readChan` が閉じれば止まり、`Events` を閉じるはずである。また `Watch` は、購読に
失敗したのに何事もなかったように返ってはならない（`StopsWithSource`）。

loop は `readChan` が閉じたことを見ないので、context が cancel されるまで nil の batch を受け取り続ける。
`innerWatch` は `Subscribe` の失敗を nil の channel にして返し、`Watch` はそれを調べない。性質が成り立つのは、
最初の読み出しが失敗したときと、購読に成功して context がいつか cancel されるときである
（`watch_stops_iff`）。

`select` は、選べる case のどれもいつかは選ぶとする（`FairSelect`）。`Events` を読む側は、流れてきたものを
受け取り続けるとする。
-/

namespace KubeFdb

open Tuple

/-- 両方の case が選べるとき、`ctx.Done()` もいつかは選ばれること。 -/
def FairSelect (picks : Nat → Bool) : Prop := ∀ n, ∃ m ≥ n, picks m = false

/-- `Watch` が起動した forwarder が、購読した channel を持ち、いつか loop を出て `Events` を閉じること。 -/
structure StopsWithSource (forwarder : Option Forwarder) (cancelAt : Option Nat)
    (picks : Nat → Bool) : Prop where
  sourced : ∀ f ∈ forwarder, f.readChan ≠ none
  closes : ∀ f ∈ forwarder, ∃ n, (f.run cancelAt picks n).closed = true

variable {f : Forwarder} {cancelAt : Option Nat} {picks : Nat → Bool} {minRevision : Int}
  {result : AfterResult} {status : CallStatus} {readChan : Option (List (List Event))}

@[simp] theorem Forwarder.receive_closed (f : Forwarder) : f.receive.closed = f.closed := by
  unfold Forwarder.receive
  split <;> rfl

theorem Forwarder.turn_closed (f : Forwarder) (done pick : Bool) :
    (f.turn done pick).closed = (f.closed || (done && (f.readChan.isNone || !pick))) := by
  unfold Forwarder.turn
  cases hc : f.closed with
  | true => simp [hc]
  | false =>
    cases hd : done && (f.readChan.isNone || !pick) with
    | true => simp
    | false => simp [hc]

/-- context が cancel されなければ、batch が尽きて channel が閉じても loop を出ない。 -/
theorem Forwarder.run_not_closed (hc : f.closed = false) (n : Nat) :
    (f.run none picks n).closed = false := by
  induction n with
  | zero => exact hc
  | succ n ih =>
    rw [Forwarder.run, Forwarder.turn_closed, ih]
    rfl

/-- context が cancel されれば、いつか loop を出る。 -/
theorem Forwarder.exists_run_closed (hfair : FairSelect picks) (k : Nat) :
    ∃ n, (f.run (some k) picks n).closed = true := by
  obtain ⟨m, hm, hpick⟩ := hfair k
  refine ⟨m + 1, ?_⟩
  rw [Forwarder.run, Forwarder.turn_closed, hpick]
  simp [hm]

theorem mem_openForwarder (h : f ∈ openForwarder minRevision result status readChan) :
    f.readChan = readChan ∧ f.closed = false := by
  unfold openForwarder at h
  split at h
  · cases h
    exact ⟨rfl, rfl⟩
  · cases h

theorem openForwarder_eq_none_iff :
    openForwarder minRevision result status readChan = none ↔ ∃ e, status = .failed e := by
  cases status with
  | failed e =>
    refine iff_of_true ?_ ⟨e, rfl⟩
    cases e <;> rfl
  | running => exact iff_of_false (by simp [openForwarder, watchStart]) (by simp)
  | done => exact iff_of_false (by simp [openForwarder, watchStart]) (by simp)

/-- 起動した forwarder が止まるのは、購読に成功し、context がいつか cancel されるときである。 -/
theorem watch_stops_iff (prefix_ : Key) (minRevision : Int) (result : AfterResult)
    (status : CallStatus) (values : Option (List (List Event))) (cancelAt : Option Nat)
    {picks : Nat → Bool} (hfair : FairSelect picks) :
    StopsWithSource (openForwarder (watchMinRevision minRevision) result status
        (innerWatch (watchPrefix prefix_) values)) cancelAt picks ↔
      (∃ e, status = .failed e) ∨ (values.isSome = true ∧ cancelAt.isSome = true) := by
  constructor
  · intro h
    cases ho : openForwarder (watchMinRevision minRevision) result status
      (innerWatch (watchPrefix prefix_) values) with
    | none => exact Or.inl (openForwarder_eq_none_iff.mp ho)
    | some f =>
      obtain ⟨hchan, hopen⟩ := mem_openForwarder ho
      refine Or.inr ⟨?_, ?_⟩
      · have hsome := h.sourced f ho
        rw [hchan] at hsome
        cases values with
        | none => exact absurd rfl hsome
        | some batches => rfl
      · obtain ⟨n, hn⟩ := h.closes f ho
        cases cancelAt with
        | none => exact absurd ((Forwarder.run_not_closed hopen n).symm.trans hn) (by decide)
        | some k => rfl
  · rintro (hfail | ⟨hvalues, hcancel⟩)
    · rw [openForwarder_eq_none_iff.mpr hfail]
      exact ⟨fun f hf => absurd hf (Option.not_mem_none f),
        fun f hf => absurd hf (Option.not_mem_none f)⟩
    · obtain ⟨batches, rfl⟩ := Option.isSome_iff_exists.mp hvalues
      obtain ⟨k, rfl⟩ := Option.isSome_iff_exists.mp hcancel
      refine ⟨fun f hf => ?_, fun f hf => Forwarder.exists_run_closed hfair k⟩
      rw [(mem_openForwarder hf).1]
      exact Option.some_ne_none _

/-- 二つの batch の後で閉じる channel。context は三回目の `select` の前に cancel される。 -/
theorem watch_stops_of_cancelled :
    StopsWithSource (openForwarder (watchMinRevision 0) ⟨1, 0, []⟩ .done (innerWatch (watchPrefix [47])
      (some [[⟨true, false, ⟨[47, 97], 2, 2, 0, [1]⟩, none⟩],
        [⟨false, true, ⟨[47, 97], 2, 3, 0, [1]⟩, none⟩]])))
      (some 3) (fun n => decide (n % 2 = 0)) := by
  refine (watch_stops_iff [47] 0 ⟨1, 0, []⟩ .done _ (some 3) (fun n => ⟨2 * n + 1, by omega, ?_⟩)).mpr
    (Or.inr ⟨rfl, rfl⟩)
  simp

/-- 閉じた channel を受け取り続ける forwarder と、nil の channel を待ち続ける forwarder。どちらも
cancel されなければ、`Events` を閉じない。 -/
theorem forwarder_never_stops :
    (∃ f, openForwarder (watchMinRevision 0) ⟨1, 0, []⟩ .done (innerWatch (watchPrefix [47]) (some []))
        = some f ∧ f.readChan = some [] ∧
      ∀ picks n, (f.run none picks n).closed = false) ∧
    ∃ f, openForwarder (watchMinRevision 0) ⟨1, 0, []⟩ .done (innerWatch (watchPrefix [47]) none)
      = some f ∧ f.readChan = none :=
  ⟨⟨_, rfl, rfl, fun _ n => Forwarder.run_not_closed rfl n⟩, _, rfl, rfl⟩

end KubeFdb
