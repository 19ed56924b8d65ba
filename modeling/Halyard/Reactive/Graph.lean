import Halyard.Acyclic

/-!
# Memo graphs and what they mean

A memo's function is pure: it reads signals and memos one after another, what it reads next may
depend on the values so far, and in the end it gives a value.  `Graph` gives each memo its function
and says that no memo can come to read itself.  `Graph.eval` is the value of a memo by recursion on
the signals' values alone; nothing in it knows of caches, marks or subscriptions.
-/

namespace Halyard.Reactive

/-- What a node can read. -/
inductive Source (σ μ : Type*) where
  | signal (s : σ)
  | memo (m : μ)
deriving DecidableEq

/-- A pure function of the values it reads. -/
inductive Computation (σ μ V : Type*) where
  | done (value : V)
  | readSignal (s : σ) (next : V → Computation σ μ V)
  | readMemo (m : μ) (next : V → Computation σ μ V)

variable {σ μ V : Type*}

namespace Computation

/-- The function reads the memo on some values. -/
def MayRead : Computation σ μ V → μ → Prop
  | done _, _ => False
  | readSignal _ next, n => ∃ value, (next value).MayRead n
  | readMemo m next, n => n = m ∨ ∃ value, (next value).MayRead n

/-- The function's value and its reads in turn, where `cached` are the memos' values; `none` where
it reads a memo that has none. -/
def trace (signals : σ → V) (cached : μ → Option V) :
    Computation σ μ V → Option (V × List (Source σ μ))
  | done value => some (value, [])
  | readSignal s next =>
      ((next (signals s)).trace signals cached).map fun rest => (rest.1, .signal s :: rest.2)
  | readMemo m next =>
      (cached m).bind fun value =>
        ((next value).trace signals cached).map fun rest => (rest.1, .memo m :: rest.2)

/-- The function's value, where `values` are those of the memos it can read. -/
def eval (signals : σ → V) : (body : Computation σ μ V) → ((n : μ) → body.MayRead n → V) → V
  | done value, _ => value
  | readSignal s next, values =>
      (next (signals s)).eval signals fun n reads => values n ⟨signals s, reads⟩
  | readMemo m next, values =>
      (next (values m (Or.inl rfl))).eval signals fun n reads =>
        values n (Or.inr ⟨values m (Or.inl rfl), reads⟩)

/-- Every memo that a trace reads is one that the function can read. -/
theorem mayRead_of_trace {signals : σ → V} {cached : μ → Option V} {body : Computation σ μ V}
    {value : V} {reads : List (Source σ μ)} (trace : body.trace signals cached = some (value, reads))
    {n : μ} (read : .memo n ∈ reads) : body.MayRead n := by
  induction body generalizing value reads with
  | done _ =>
      simp only [Computation.trace, Option.some.injEq, Prod.mk.injEq] at trace
      rw [← trace.2] at read
      cases read
  | readSignal s next ih =>
      simp only [Computation.trace, Option.map_eq_some_iff, Prod.mk.injEq] at trace
      rcases trace with ⟨rest, tail, -, rfl⟩
      exact ⟨signals s, ih _ tail (by simpa using read)⟩
  | readMemo m next ih =>
      simp only [Computation.trace, Option.bind_eq_some_iff, Option.map_eq_some_iff,
        Prod.mk.injEq] at trace
      rcases trace with ⟨here, -, rest, tail, -, rfl⟩
      rcases List.mem_cons.1 read with same | later
      · exact Or.inl (Source.memo.inj same)
      · exact Or.inr ⟨here, ih _ tail later⟩

/-- A trace depends on the values of what it reads only. -/
theorem trace_congr {signals signals' : σ → V} {cached cached' : μ → Option V}
    {body : Computation σ μ V} {value : V} {reads : List (Source σ μ)}
    (trace : body.trace signals cached = some (value, reads))
    (sameSignals : ∀ s, .signal s ∈ reads → signals' s = signals s)
    (sameMemos : ∀ n, .memo n ∈ reads → cached' n = cached n) :
    body.trace signals' cached' = some (value, reads) := by
  induction body generalizing value reads with
  | done _ => exact trace
  | readSignal s next ih =>
      simp only [Computation.trace, Option.map_eq_some_iff, Prod.mk.injEq] at trace
      rcases trace with ⟨rest, tail, rfl, rfl⟩
      have same := sameSignals s List.mem_cons_self
      have tail' := ih _ tail (fun s' read => sameSignals s' (List.mem_cons_of_mem _ read))
        (fun n read => sameMemos n (List.mem_cons_of_mem _ read))
      simp [Computation.trace, same, tail']
  | readMemo m next ih =>
      simp only [Computation.trace, Option.bind_eq_some_iff, Option.map_eq_some_iff,
        Prod.mk.injEq] at trace
      rcases trace with ⟨here, cache, rest, tail, rfl, rfl⟩
      have same := sameMemos m List.mem_cons_self
      have tail' := ih _ tail (fun s' read => sameSignals s' (List.mem_cons_of_mem _ read))
        (fun n read => sameMemos n (List.mem_cons_of_mem _ read))
      simp [Computation.trace, same, cache, tail']

theorem trace_eq_eval (signals : σ → V) (values : μ → V) (body : Computation σ μ V) :
    ∃ reads, body.trace signals (fun n => some (values n)) =
      some (body.eval signals fun n _ => values n, reads) := by
  induction body with
  | done value => exact ⟨[], rfl⟩
  | readSignal s next ih =>
      rcases ih (signals s) with ⟨reads, tail⟩
      exact ⟨.signal s :: reads, by simp [Computation.trace, Computation.eval, tail]⟩
  | readMemo m next ih =>
      rcases ih (values m) with ⟨reads, tail⟩
      exact ⟨.memo m :: reads, by simp [Computation.trace, Computation.eval, tail]⟩

end Computation

/-- Memos and their functions, none of which can come to read itself. -/
structure Graph (σ μ V : Type*) where
  fn : μ → Computation σ μ V
  acyclic : ∀ m, ¬ Relation.TransGen (fun n m => (fn m).MayRead n) m m

namespace Graph

section Rank

variable [Fintype μ] (g : Graph σ μ V)

/-- The height of a memo in the graph. -/
noncomputable def rank : μ → ℕ := Acyclic.rank fun n m => (g.fn m).MayRead n

theorem rank_lt {m n : μ} (reads : (g.fn m).MayRead n) : g.rank n < g.rank m :=
  Acyclic.rank_lt_rank g.acyclic reads

theorem rank_lt_card (m : μ) : g.rank m < Fintype.card μ := Acyclic.rank_lt_card g.acyclic m

end Rank

/-- The value of a memo, evaluated recursively on the values of the signals. -/
noncomputable def eval [Fintype μ] (g : Graph σ μ V) (signals : σ → V) (m : μ) : V :=
  (g.fn m).eval signals fun n _ => g.eval signals n
termination_by g.rank m
decreasing_by
  rename_i reads
  exact g.rank_lt reads

/-- A memo's function, run on the values of the memos, gives its value. -/
theorem trace_eval [Fintype μ] (g : Graph σ μ V) (signals : σ → V) (m : μ) :
    ∃ reads, (g.fn m).trace signals (fun n => some (g.eval signals n)) =
      some (g.eval signals m, reads) := by
  rcases Computation.trace_eq_eval signals (g.eval signals) (g.fn m) with ⟨reads, trace⟩
  rw [← Graph.eval] at trace
  exact ⟨reads, trace⟩

end Graph

end Halyard.Reactive
