import Halyard.Reactive.Marks

/-!
# The invariant of the graph

`Inv g busy st` holds between any two steps of the code, where `busy` are the memos whose
functions are being run: subscriptions go both ways, a clean memo's sources are clean, and a memo
that is neither dirty nor busy has the value and the sources that its function gives on the
cached values.  So a clean memo has its current value (`Inv.clean_eval`).

`Frame` is what an update leaves alone: clean memos stay as they are, memos that are not clean
afterwards were not touched, and whoever subscribes to a memo whose value changed knows of it.
-/

namespace Halyard.Reactive

variable {σ μ V : Type*} [DecidableEq σ] [DecidableEq μ]

/-! ## Ordered sets -/

section Sets

variable {α : Type*} [DecidableEq α]

/-- An `IndexSet` of items inserted in turn. -/
def indexSet (items : List α) : List α := items.foldl insertLast []

theorem mem_insertLast {items : List α} {item other : α} :
    other ∈ insertLast items item ↔ other ∈ items ∨ other = item := by
  unfold insertLast
  split
  next member =>
    refine ⟨Or.inl, fun either => ?_⟩
    rcases either with old | rfl
    · exact old
    · exact member
  · simp

theorem nodup_insertLast {items : List α} {item : α} (nodup : items.Nodup) :
    (insertLast items item).Nodup := by
  unfold insertLast
  split
  · exact nodup
  next new =>
    refine List.nodup_append.2 ⟨nodup, List.nodup_singleton item, fun a member b last => ?_⟩
    rw [List.mem_singleton.1 last]
    exact fun same => new (same ▸ member)

theorem indexSet_concat (items : List α) (item : α) :
    indexSet (items ++ [item]) = insertLast (indexSet items) item := by
  simp [indexSet]

theorem mem_indexSet {items : List α} {item : α} : item ∈ indexSet items ↔ item ∈ items := by
  induction items using List.reverseRecOn with
  | nil => simp [indexSet]
  | append_singleton items last ih =>
      rw [indexSet_concat, mem_insertLast, ih, List.mem_append, List.mem_singleton]

end Sets

/-! ## The invariant -/

section Invariant

variable {g : Graph σ μ V}

/-- The memo's value and sources are those that its function gives on the cached values. -/
def UpToDate (g : Graph σ μ V) (st : State σ μ V) (m : μ) : Prop :=
  ∃ value reads, (g.fn m).trace st.signals st.cached = some (value, reads) ∧
    st.cached m = some value ∧ st.sources (.memo m) = indexSet reads

structure Inv (g : Graph σ μ V) (busy : μ → Prop) (st : State σ μ V) : Prop where
  subscribed : ∀ sub source, sub ∈ st.subscribers source ↔ source ∈ st.sources sub
  nodup : ∀ source, (st.subscribers source).Nodup
  mayRead : ∀ m n, .memo n ∈ st.sources (.memo m) → (g.fn m).MayRead n
  closed : ∀ m n, .memo n ∈ st.sources (.memo m) → st.state m = .clean → st.state n = .clean
  marked : ∀ m, busy m → st.state m ≠ .clean
  upToDate : ∀ m, ¬ busy m → st.state m ≠ .dirty → UpToDate g st m

variable {busy : μ → Prop} {st : State σ μ V}

theorem Inv.ranked [Fintype μ] (inv : Inv g busy st) : Ranked g st := by
  intro m n member
  exact g.rank_lt (inv.mayRead n m ((inv.subscribed _ _).1 member))

theorem Inv.markedUp (inv : Inv g busy st) : MarkedUp st := by
  intro m n member marked clean
  exact marked (inv.closed n m ((inv.subscribed _ _).1 member) clean)

/-- The invariant does not depend on the observer. -/
theorem Inv.observe (inv : Inv g busy st) (observer : Option (Subscriber μ)) :
    Inv g busy { st with observer } :=
  ⟨inv.subscribed, inv.nodup, inv.mayRead, inv.closed, inv.marked, inv.upToDate⟩

/-- A clean memo has its current value, and the sources that its function reads now. -/
theorem Inv.clean_eval [Fintype μ] (inv : Inv g busy st) {m : μ} (clean : st.state m = .clean) :
    st.cached m = some (g.eval st.signals m) ∧
      ∃ reads, (g.fn m).trace st.signals (fun n => some (g.eval st.signals n)) =
        some (g.eval st.signals m, reads) ∧ st.sources (.memo m) = indexSet reads := by
  induction rank : g.rank m using Nat.strong_induction_on generalizing m with
  | _ rank ih =>
      have idle : ¬ busy m := fun runs => inv.marked m runs clean
      rcases inv.upToDate m idle (by simp [clean]) with ⟨value, reads, trace, cached, sources⟩
      have agree : ∀ n, .memo n ∈ reads → some (g.eval st.signals n) = st.cached n := by
        intro n read
        have source : .memo n ∈ st.sources (.memo m) := by rw [sources, mem_indexSet]; exact read
        have lower := g.rank_lt (inv.mayRead m n source)
        exact (ih (g.rank n) (rank ▸ lower) (inv.closed m n source clean) rfl).1.symm
      have evaluated := Computation.trace_congr trace (fun _ _ => rfl) agree
      rcases g.trace_eval st.signals m with ⟨reads', now⟩
      rw [evaluated, Option.some.injEq, Prod.mk.injEq] at now
      refine ⟨by rw [cached, now.1], reads, ?_, sources⟩
      rw [evaluated, now.1]

end Invariant

end Halyard.Reactive
