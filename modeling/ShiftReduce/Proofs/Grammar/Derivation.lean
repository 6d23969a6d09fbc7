import Mathlib.Logic.Relation
import ShiftReduce.Grammar.Basic

/-!
Derivations. `Step` replaces one nonterminal anywhere and `Derives` repeats it; `RightDerives`
replaces the last nonterminal every time and lists the productions by number. What derives a string
of terminals also derives it from the right (`derives_terminals_iff`).
-/

namespace ShiftReduce.Grammar

variable {g : Grammar} {ns ms : List Nat} {α β γ : List Symbol}

def Step (g : Grammar) (α β : List Symbol) : Prop :=
  ∃ n p left right, g.prod? n = some p ∧ α = left ++ .nonterminal p.head :: right ∧
    β = left ++ p.rhs ++ right

def Derives (g : Grammar) : List Symbol → List Symbol → Prop := Relation.ReflTransGen g.Step

/-- Production `n` replaces the last nonterminal. -/
def RightStep (g : Grammar) (n : Nat) (α β : List Symbol) : Prop :=
  ∃ p left, ∃ ts : List Nat, g.prod? n = some p ∧
    α = left ++ .nonterminal p.head :: ts.map .terminal ∧
    β = left ++ p.rhs ++ ts.map .terminal

inductive RightDerives (g : Grammar) : List Nat → List Symbol → List Symbol → Prop
  | refl (α : List Symbol) : RightDerives g [] α α
  | head {n : Nat} {ns : List Nat} {α β γ : List Symbol} (step : g.RightStep n α β)
      (rest : RightDerives g ns β γ) : RightDerives g (n :: ns) α γ

theorem Step.context (step : g.Step α β) (left right : List Symbol) :
    g.Step (left ++ α ++ right) (left ++ β ++ right) := by
  obtain ⟨n, p, front, behind, found, rfl, rfl⟩ := step
  exact ⟨n, p, left ++ front, behind ++ right, found, by simp, by simp⟩

theorem Derives.trans (first : g.Derives α β) (second : g.Derives β γ) : g.Derives α γ :=
  Relation.ReflTransGen.trans first second

theorem Derives.context (h : g.Derives α β) (left right : List Symbol) :
    g.Derives (left ++ α ++ right) (left ++ β ++ right) := by
  induction h with
  | refl => exact .refl
  | tail _ step ih => exact ih.tail (step.context left right)

theorem Derives.append_left (h : g.Derives α β) (left : List Symbol) :
    g.Derives (left ++ α) (left ++ β) := by
  simpa using h.context left []

theorem Derives.append {δ : List Symbol} (front : g.Derives α γ) (behind : g.Derives β δ) :
    g.Derives (α ++ β) (γ ++ δ) :=
  (front.context [] β).trans (behind.append_left γ)

theorem Derives.map {k : Grammar} {ρ : Symbol → Symbol}
    (carry : ∀ n p, g.prod? n = some p → ∃ m q, k.prod? m = some q ∧
      .nonterminal q.head = ρ (.nonterminal p.head) ∧ q.rhs = p.rhs.map ρ)
    (h : g.Derives α β) : k.Derives (α.map ρ) (β.map ρ) := by
  refine h.lift (List.map ρ) fun _ _ step => ?_
  obtain ⟨n, p, left, right, found, rfl, rfl⟩ := step
  obtain ⟨m, q, found', head, rhs⟩ := carry n p found
  exact ⟨m, q, left.map ρ, right.map ρ, found', by simp [head], by simp [rhs]⟩

theorem derives_rhs {p : Production} (hp : p ∈ g.prods) :
    g.Derives [.nonterminal p.head] p.rhs := by
  obtain ⟨n, found⟩ := Array.getElem?_of_mem hp
  exact .single ⟨n, p, [], [], found, rfl, by simp⟩

theorem append_eq_append_cons {σ : Type} {xs ys left right : List σ} {x : σ}
    (h : xs ++ ys = left ++ x :: right) :
    (∃ mid, ys = mid ++ x :: right ∧ left = xs ++ mid) ∨
      ∃ mid, xs = left ++ x :: mid ∧ right = mid ++ ys := by
  obtain ⟨mid, hleft, hys⟩ | ⟨mid, hxs, hright⟩ := List.append_eq_append_iff.1 h
  · exact .inl ⟨mid, hys, hleft⟩
  · cases mid with
    | nil => exact .inl ⟨[], by simpa using hright.symm, by simpa using hxs.symm⟩
    | cons y mid =>
        obtain ⟨rfl, behind⟩ := List.cons.inj hright
        exact .inr ⟨mid, hxs, behind⟩

theorem RightStep.step {n : Nat} (h : g.RightStep n α β) : g.Step α β := by
  obtain ⟨p, left, ts, found, hα, hβ⟩ := h
  exact ⟨n, p, left, ts.map .terminal, found, hα, hβ⟩

theorem RightStep.prepend {n : Nat} (h : g.RightStep n α β) (left : List Symbol) :
    g.RightStep n (left ++ α) (left ++ β) := by
  obtain ⟨p, inner, ts, found, rfl, rfl⟩ := h
  exact ⟨p, left ++ inner, ts, found, by simp, by simp⟩

theorem RightStep.append {n : Nat} (h : g.RightStep n α β) (us : List Nat) :
    g.RightStep n (α ++ us.map .terminal) (β ++ us.map .terminal) := by
  obtain ⟨p, left, ts, found, rfl, rfl⟩ := h
  exact ⟨p, left, ts ++ us, found, by simp, by simp⟩

theorem RightStep.not_terminals {n : Nat} {ts : List Nat} :
    ¬ g.RightStep n (ts.map .terminal) β := by
  intro ⟨p, left, us, _, here, _⟩
  have mem : Symbol.nonterminal p.head ∈ ts.map Symbol.terminal := by
    rw [here]
    simp
  simp at mem

namespace RightDerives

theorem derives (h : g.RightDerives ns α β) : g.Derives α β := by
  induction h with
  | refl α => exact Relation.ReflTransGen.refl
  | head step _ ih => exact Relation.ReflTransGen.head step.step ih

theorem prepend (h : g.RightDerives ns α β) (left : List Symbol) :
    g.RightDerives ns (left ++ α) (left ++ β) := by
  induction h with
  | refl α => exact refl _
  | head step _ ih => exact head (step.prepend left) ih

theorem append (h : g.RightDerives ns α β) (us : List Nat) :
    g.RightDerives ns (α ++ us.map .terminal) (β ++ us.map .terminal) := by
  induction h with
  | refl α => exact refl _
  | head step _ ih => exact head (step.append us) ih

theorem append_iff :
    g.RightDerives (ns ++ ms) α γ ↔ ∃ β, g.RightDerives ns α β ∧ g.RightDerives ms β γ := by
  apply Iff.intro
  · intro h
    induction ns generalizing α with
    | nil => exact ⟨α, refl α, h⟩
    | cons n ns ih =>
        cases h with
        | head step rest =>
            obtain ⟨β, first, second⟩ := ih rest
            exact ⟨β, head step first, second⟩
  · intro ⟨β, first, second⟩
    induction first with
    | refl α => exact second
    | head step _ ih => exact head step (ih second)

theorem concat_iff {n : Nat} :
    g.RightDerives (ns ++ [n]) α γ ↔ ∃ β, g.RightDerives ns α β ∧ g.RightStep n β γ := by
  rw [append_iff]
  refine exists_congr fun β => and_congr_right fun _ => ⟨fun h => ?_, fun h => head h (refl γ)⟩
  cases h with
  | head step rest =>
      cases rest
      exact step

theorem of_terminals {ts : List Nat} (h : g.RightDerives ns (ts.map .terminal) β) :
    ns = [] ∧ β = ts.map .terminal := by
  cases h with
  | refl => exact ⟨rfl, rfl⟩
  | head step _ => exact absurd step RightStep.not_terminals

theorem split {ts : List Nat} (h : g.RightDerives ns (α ++ β) (ts.map .terminal)) :
    ∃ ls rs us vs, ns = rs ++ ls ∧ ts = us ++ vs ∧ g.RightDerives ls α (us.map .terminal) ∧
      g.RightDerives rs β (vs.map .terminal) := by
  generalize whole : α ++ β = form at h
  generalize word : ts.map Symbol.terminal = last at h
  induction h generalizing α β with
  | refl form =>
      subst whole
      obtain ⟨us, vs, rfl, rfl, rfl⟩ := List.map_eq_append_iff.1 word
      exact ⟨[], [], us, vs, rfl, rfl, refl _, refl _⟩
  | @head n ns _ _ _ step rest ih =>
      obtain ⟨p, left, xs, found, rfl, rfl⟩ := step
      obtain ⟨mid, rfl, rfl⟩ | ⟨mid, rfl, behind⟩ := append_eq_append_cons whole
      · obtain ⟨ls, rs, us, vs, rfl, rfl, hα, hβ⟩ :=
          ih (α := α) (β := mid ++ p.rhs ++ xs.map .terminal) (by simp) word
        exact ⟨ls, n :: rs, us, vs, rfl, rfl, hα, head ⟨p, mid, xs, found, rfl, rfl⟩ hβ⟩
      · obtain ⟨xs₁, xs₂, rfl, rfl, rfl⟩ := List.map_eq_append_iff.1 behind
        obtain ⟨ls, rs, us, vs, rfl, rfl, hα, hβ⟩ :=
          ih (α := left ++ p.rhs ++ xs₁.map .terminal) (β := xs₂.map .terminal) (by simp) word
        obtain ⟨rfl, same⟩ := of_terminals hβ
        exact ⟨n :: ls, [], us, vs, rfl, rfl, head ⟨p, left, xs₁, found, rfl, rfl⟩ hα,
          same ▸ refl _⟩

theorem join {ts us : List Nat} (front : g.RightDerives ns α (ts.map .terminal))
    (behind : g.RightDerives ms β (us.map .terminal)) :
    g.RightDerives (ms ++ ns) (α ++ β) ((ts ++ us).map .terminal) := by
  rw [List.map_append]
  exact append_iff.2 ⟨_, behind.prepend α, front.append us⟩

/-- A step anywhere in front of a rightmost derivation can be moved to its place in it. -/
theorem of_step {ts : List Nat} (step : g.Step α β) (h : g.RightDerives ns β (ts.map .terminal)) :
    ∃ ms, g.RightDerives ms α (ts.map .terminal) := by
  obtain ⟨n, p, left, right, found, rfl, rfl⟩ := step
  obtain ⟨ls, rs, us, vs, rfl, rfl, front, behind⟩ := h.split
  have replaced : g.RightDerives (n :: ls) (left ++ [.nonterminal p.head]) (us.map .terminal) :=
    head ⟨p, left, [], found, by simp, by simp⟩ front
  exact ⟨rs ++ n :: ls, by simpa using replaced.join behind⟩

end RightDerives

theorem derives_terminals_iff {ts : List Nat} :
    g.Derives α (ts.map .terminal) ↔ ∃ ns, g.RightDerives ns α (ts.map .terminal) := by
  apply Iff.intro
  · intro h
    induction h using Relation.ReflTransGen.head_induction_on with
    | refl => exact ⟨[], .refl _⟩
    | head step _ ih =>
        obtain ⟨ns, rest⟩ := ih
        exact rest.of_step step
  · intro ⟨ns, h⟩
    exact h.derives

def Spells (g : Grammar) (ts : List Nat) (w : List String) : Prop :=
  w.map g.terms.index? = ts.map some

theorem Spells.append {ts us : List Nat} {v w : List String} (first : g.Spells ts v)
    (second : g.Spells us w) : g.Spells (ts ++ us) (v ++ w) := by
  rw [Spells] at first second ⊢
  rw [List.map_append, List.map_append, first, second]

def Sentence (g : Grammar) (w : List String) : Prop :=
  ∃ ts, g.Spells ts w ∧ g.Derives [.nonterminal g.start] (ts.map .terminal)

/-- The productions `ns` derive the tokens from the start symbol, each replacing the last
nonterminal. -/
def RightmostDerivation (g : Grammar) (ns : List Nat) (w : List String) : Prop :=
  ∃ ts, g.Spells ts w ∧ g.RightDerives ns [.nonterminal g.start] (ts.map .terminal)

def Unambiguous (g : Grammar) : Prop :=
  ∀ w ns ms, g.RightmostDerivation ns w → g.RightmostDerivation ms w → ns = ms

theorem sentence_iff {w : List String} : g.Sentence w ↔ ∃ ns, g.RightmostDerivation ns w := by
  apply Iff.intro
  · intro ⟨ts, spelled, h⟩
    obtain ⟨ns, h⟩ := derives_terminals_iff.1 h
    exact ⟨ns, ts, spelled, h⟩
  · intro ⟨ns, ts, spelled, h⟩
    exact ⟨ts, spelled, h.derives⟩

end ShiftReduce.Grammar
