import Mathlib.Data.List.Induction
import ShiftReduce.Proofs.Grammar.Derivation

/-!
Rightmost derivations read backwards. A plan says how the symbols that have been recognized and the
terminals ahead of them are brought down to a form by shifting and reducing. The plans that start
with nothing recognized are the rightmost derivations with their productions in reverse
(`plan_iff_rightDerives`), so a machine that can follow every plan misses no derivation.
-/

namespace ShiftReduce.Grammar

/-- Brings `γ`, with the terminals `ts` ahead, down to the form `ω`; `ns` are the reductions in
their order. -/
inductive Plan (g : Grammar) (ω : List Symbol) : List Symbol → List Nat → List Nat → Prop
  | done : Plan g ω ω [] []
  | shift {γ : List Symbol} {t : Nat} {ts ns : List Nat}
      (rest : Plan g ω (γ ++ [.terminal t]) ts ns) : Plan g ω γ (t :: ts) ns
  | reduce {γ : List Symbol} {n : Nat} {p : Production} {ts ns : List Nat}
      (found : g.prod? n = some p) (rest : Plan g ω (γ ++ [.nonterminal p.head]) ts ns) :
      Plan g ω (γ ++ p.rhs) ts (n :: ns)

variable {g : Grammar} {γ δ ω α : List Symbol} {ts us vs ns ms : List Nat}

theorem Plan.trans (first : g.Plan δ γ ts ns) (second : g.Plan ω δ us ms) :
    g.Plan ω γ (ts ++ us) (ns ++ ms) := by
  induction first with
  | done => exact second
  | shift _ ih => exact .shift ih
  | reduce found _ ih => exact .reduce found ih

theorem Plan.rightDerives (plan : g.Plan ω γ ts ns) :
    g.RightDerives ns.reverse ω (γ ++ ts.map .terminal) := by
  induction plan with
  | done => simpa using RightDerives.refl ω
  | shift _ ih => simpa using ih
  | @reduce γ n p ts ns found _ ih =>
      rw [List.reverse_cons, RightDerives.concat_iff]
      exact ⟨_, ih, p, γ, ts, found, by simp, rfl⟩

theorem Plan.shifts (plan : g.Plan ω (γ ++ us.map .terminal) ts ns) :
    g.Plan ω γ (us ++ ts) ns := by
  induction us generalizing γ with
  | nil => simpa using plan
  | cons u us ih =>
      have behind : g.Plan ω ((γ ++ [.terminal u]) ++ us.map .terminal) ts ns := by simpa using plan
      exact .shift (ih behind)

def Unshifted (γ : List Symbol) : Prop := ∀ left t, γ ≠ left ++ [.terminal t]

theorem exists_unshifted (α : List Symbol) :
    ∃ (γ : List Symbol) (us : List Nat), Unshifted γ ∧ α = γ ++ us.map .terminal := by
  induction α using List.reverseRecOn with
  | nil => exact ⟨[], [], by simp [Unshifted], rfl⟩
  | append_singleton α x ih =>
      cases x with
      | terminal t =>
          obtain ⟨γ, us, unshifted, rfl⟩ := ih
          exact ⟨γ, us ++ [t], unshifted, by simp⟩
      | nonterminal a => exact ⟨α ++ [.nonterminal a], [], by simp [Unshifted], by simp⟩
      | empty => exact ⟨α ++ [.empty], [], by simp [Unshifted], by simp⟩

theorem Unshifted.eq_nil_of_terminals (unshifted : Unshifted γ)
    (h : γ ++ ts.map .terminal = us.map Symbol.terminal) : γ = [] ∧ ts = us := by
  obtain ⟨front, behind, rfl, rfl, same⟩ := List.map_eq_append_iff.1 h.symm
  have ahead : behind = ts := (List.map_inj_right fun _ _ => Symbol.terminal.inj).1 same
  cases List.eq_nil_or_concat front with
  | inl none_left => exact ⟨by simp [none_left], by simp [none_left, ahead]⟩
  | inr some_left =>
      obtain ⟨left, t, rfl⟩ := some_left
      exact absurd (by simp) (unshifted (left.map .terminal) t)

theorem Unshifted.eq_concat_nonterminal (unshifted : Unshifted γ) {left : List Symbol} {a : Nat}
    (h : γ ++ ts.map .terminal = left ++ .nonterminal a :: us.map .terminal) :
    γ = left ++ [.nonterminal a] ∧ ts = us := by
  cases append_eq_append_cons h with
  | inl ahead =>
      obtain ⟨mid, here, _⟩ := ahead
      have mem : Symbol.nonterminal a ∈ ts.map Symbol.terminal := by
        rw [here]
        simp
      simp at mem
  | inr recognized =>
      obtain ⟨mid, rfl, here⟩ := recognized
      have behind : Unshifted mid := by
        intro front t same
        exact unshifted (left ++ .nonterminal a :: front) t (by simp [same])
      obtain ⟨rfl, same⟩ := behind.eq_nil_of_terminals here.symm
      exact ⟨rfl, same⟩

theorem Plan.recognize_unshifted (plan : g.Plan ω (δ ++ γ) (ts ++ vs) ms)
    (unshifted : Unshifted γ) (h : g.RightDerives ns (γ ++ ts.map .terminal) (us.map .terminal)) :
    g.Plan ω δ (us ++ vs) (ns.reverse ++ ms) := by
  generalize whole : γ ++ ts.map .terminal = form at h
  generalize word : us.map Symbol.terminal = last at h
  induction h generalizing γ ts ms with
  | refl form =>
      obtain ⟨rfl, rfl⟩ := unshifted.eq_nil_of_terminals (whole.trans word.symm)
      simpa using plan
  | @head n ns _ _ _ step _ ih =>
      obtain ⟨p, left, xs, found, here, rfl⟩ := step
      obtain ⟨rfl, rfl⟩ := unshifted.eq_concat_nonterminal (whole.trans here)
      obtain ⟨γ, ys, unshifted', split⟩ := exists_unshifted (left ++ p.rhs)
      rw [← List.append_assoc] at plan
      have back : g.Plan ω (δ ++ left ++ p.rhs) (ts ++ vs) (n :: ms) := .reduce found plan
      rw [List.append_assoc, split, ← List.append_assoc] at back
      have shifted : g.Plan ω (δ ++ γ) ((ys ++ ts) ++ vs) (n :: ms) := by
        simpa using back.shifts
      simpa using ih shifted unshifted' (by simp [split]) word

theorem Plan.recognize (plan : g.Plan ω (γ ++ α) ts ns)
    (h : g.RightDerives ms α (us.map .terminal)) :
    g.Plan ω γ (us ++ ts) (ms.reverse ++ ns) := by
  obtain ⟨β, vs, unshifted, rfl⟩ := exists_unshifted α
  rw [← List.append_assoc] at plan
  exact plan.shifts.recognize_unshifted unshifted h

theorem plan_iff_rightDerives :
    g.Plan ω [] ts ns ↔ g.RightDerives ns.reverse ω (ts.map .terminal) := by
  apply Iff.intro
  · intro plan
    exact plan.rightDerives
  · intro h
    have start : g.Plan ω ([] ++ ω) [] [] := .done
    simpa using start.recognize h

end ShiftReduce.Grammar
