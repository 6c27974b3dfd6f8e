import Mathlib

/-! Systems that take step after step, each of which may fail, and what holds throughout their
runs. -/
namespace Runs

variable {σ ι ε : Type} {step : σ → ι → Except ε σ} {Q : σ → ι → Prop} {start s s' : σ}

/-- The states reached from `start` by steps that all meet `Q`. -/
inductive Reaches (step : σ → ι → Except ε σ) (Q : σ → ι → Prop) (start : σ) : σ → Prop where
  | start : Reaches step Q start start
  | step {s s' : σ} {op : ι} (h : Reaches step Q start s) (hQ : Q s op)
      (hstep : step s op = .ok s') : Reaches step Q start s'

/-- What holds at the start and is kept by every step holds throughout. -/
theorem Reaches.keeps {I : σ → Prop} (h : Reaches step Q start s) (hstart : I start)
    (hstep : ∀ s op s', I s → Q s op → step s op = .ok s' → I s') : I s := by
  induction h with
  | start => exact hstart
  | step _ hQ hs ih => exact hstep _ _ _ ih hQ hs

/-- A sequence of steps that all meet `Q`. -/
def runMeets (step : σ → ι → Except ε σ) (Q : σ → ι → Prop) [∀ s op, Decidable (Q s op)] :
    σ → List ι → Option σ
  | s, [] => some s
  | s, op :: ops =>
    if Q s op then
      match step s op with
      | .ok s' => runMeets step Q s' ops
      | .error _ => none
    else none

theorem Reaches.of_runMeets [∀ s op, Decidable (Q s op)] {ops : List ι}
    (h : Reaches step Q start s) (hr : runMeets step Q s ops = some s') :
    Reaches step Q start s' := by
  induction ops generalizing s with
  | nil =>
    cases hr
    exact h
  | cons op ops ih =>
    simp only [runMeets] at hr
    split at hr
    · next hq =>
      split at hr
      · next hstep => exact ih (h.step hq hstep) hr
      · cases hr
    · cases hr

/-- A run that was evaluated ends in a state that has been reached. -/
theorem reaches_of_elim (step : σ → ι → Except ε σ) (Q : σ → ι → Prop)
    [∀ s op, Decidable (Q s op)] (start : σ) (ops : List ι) (p : σ → Bool)
    (h : (runMeets step Q start ops).elim false p = true) :
    ∃ s, Reaches step Q start s ∧ runMeets step Q start ops = some s ∧ p s = true := by
  cases hr : runMeets step Q start ops with
  | none =>
    rw [hr] at h
    cases h
  | some s =>
    rw [hr] at h
    exact ⟨s, Reaches.start.of_runMeets hr, rfl, h⟩

section Loops

variable {α : Type} {f : σ → α → σ} {I : σ → Prop}

/-- What every turn of a loop keeps, the loop keeps. -/
theorem foldl_keeps (l : List α) (hs : I s) (hturn : ∀ s, I s → ∀ a ∈ l, I (f s a)) :
    I (l.foldl f s) := by
  induction l generalizing s with
  | nil => exact hs
  | cons a l ih =>
    exact ih (hturn s hs a List.mem_cons_self) fun s hs b hb =>
      hturn s hs b (List.mem_cons_of_mem a hb)

/-- What each turn of a loop does for its element, and no turn undoes, is done in the end. -/
theorem foldl_visits {G : α → σ → Prop} (l : List α) (hs : I s)
    (hturn : ∀ s, I s → ∀ a ∈ l, I (f s a)) (hdoes : ∀ s, I s → ∀ a ∈ l, G a (f s a))
    (hkeeps : ∀ s, I s → ∀ a ∈ l, ∀ b, G b s → G b (f s a)) : ∀ a ∈ l, G a (l.foldl f s) := by
  induction l generalizing s with
  | nil =>
    intro a ha
    cases ha
  | cons a l ih =>
    have hrest : ∀ b ∈ l, b ∈ a :: l := fun b hb => List.mem_cons_of_mem a hb
    have hnext := hturn s hs a List.mem_cons_self
    intro b hb
    rcases List.mem_cons.mp hb with rfl | hb
    · have hdone := foldl_keeps (I := fun s => I s ∧ G b s) l
        ⟨hnext, hdoes s hs b List.mem_cons_self⟩ fun s hs a ha =>
          ⟨hturn s hs.1 a (hrest a ha), hkeeps s hs.1 a (hrest a ha) b hs.2⟩
      exact hdone.2
    · exact ih hnext (fun s hs c hc => hturn s hs c (hrest c hc))
        (fun s hs c hc => hdoes s hs c (hrest c hc))
        (fun s hs c hc => hkeeps s hs c (hrest c hc)) b hb

end Loops

end Runs
