import Gremlin.Descriptors.Nodes
import Mathlib.Data.List.Forall2

/-!
This module contains the loop that most passes share: visit the files in order, make of each a new
one, and stop at the first error.
-/

namespace Gremlin.Pool

@[simp]
theorem update_self (p : Pool) (f : FileId) : (p.update f fun _ => p.heap f) = p := by
  unfold update
  rw [Function.update_eq_self]

def sweep (pass : Pool → FileId → Except ParsingError FileNode) (p : Pool) : Except Failure Pool :=
  go p p.files 0
where
  go (p : Pool) : List FileId → Nat → Except Failure Pool
    | [], _ => .ok p
    | f :: rest, i =>
      match pass p f with
      | .error e => .error ⟨e, i⟩
      | .ok file => go (p.update f fun _ => file) rest (i + 1)

/--
`Agree` covers what the pass reads of other files, and the pass keeps it.
-/
structure Stable (pass : Pool → FileId → Except ParsingError FileNode)
    (Agree : FileNode → FileNode → Prop) : Prop where
  refl : ∀ file, Agree file file
  pass_eq : ∀ (p q : Pool) (f : FileId), q.files = p.files → (∀ g, Agree (p.heap g) (q.heap g))
    → q.heap f = p.heap f → pass q f = pass p f
  agree : ∀ (p : Pool) (f : FileId) (file : FileNode), pass p f = .ok file → Agree (p.heap f) file

variable {pass : Pool → FileId → Except ParsingError FileNode} {Agree : FileNode → FileNode → Prop}
variable {p q q' : Pool} {l : List FileId} {i : Nat} {e : Failure}

theorem agree_update (h : Stable pass Agree) (hagree : ∀ g, Agree (p.heap g) (q.heap g))
    {f : FileId} {file : FileNode} (hpass : pass p f = .ok file) (g : FileId)
    : Agree (p.heap g) ((q.update f fun _ => file).heap g) := by
  by_cases hg : g = f
  . subst hg
    rw [update_heap_self]
    exact h.agree p g file hpass
  . rw [update_heap_of_ne hg]
    exact hagree g

theorem sweep_go_ok (h : Stable pass Agree) (hl : l.Nodup) (hfiles : q.files = p.files)
    (hagree : ∀ g, Agree (p.heap g) (q.heap g)) (hsame : ∀ f ∈ l, q.heap f = p.heap f)
    (hgo : sweep.go pass q l i = .ok q')
    : q'.files = p.files ∧ (∀ f ∈ l, pass p f = .ok (q'.heap f))
        ∧ ∀ f, f ∉ l → q'.heap f = q.heap f := by
  induction l generalizing q i with
  | nil =>
    rw [sweep.go, Except.ok.injEq] at hgo
    subst hgo
    exact ⟨hfiles, by simp, fun _ _ => rfl⟩
  | cons f l ih =>
    rw [List.nodup_cons] at hl
    rw [List.forall_mem_cons] at hsame
    rw [sweep.go, h.pass_eq p q f hfiles hagree hsame.1] at hgo
    split at hgo
    . simp at hgo
    . next file hpass =>
      have hfiles' : (q.update f fun _ => file).files = p.files := hfiles
      have hsame' : ∀ f' ∈ l, (q.update f fun _ => file).heap f' = p.heap f' := by
        intro f' hf'
        rw [update_heap_of_ne (by rintro rfl; exact hl.1 hf'), hsame.2 f' hf']
      obtain ⟨hfiles'', hl', hrest⟩ := ih hl.2 hfiles' (agree_update h hagree hpass) hsame' hgo
      refine ⟨hfiles'', ?_, ?_⟩
      . rw [List.forall_mem_cons]
        refine ⟨?_, hl'⟩
        rw [hrest f hl.1, update_heap_self, hpass]
      . intro f' hf'
        rw [List.mem_cons, not_or] at hf'
        rw [hrest f' hf'.2, update_heap_of_ne hf'.1]

theorem sweep_go_error (h : Stable pass Agree) (hl : l.Nodup) (hfiles : q.files = p.files)
    (hagree : ∀ g, Agree (p.heap g) (q.heap g)) (hsame : ∀ f ∈ l, q.heap f = p.heap f)
    (hgo : sweep.go pass q l i = .error e) : ∃ f ∈ l, pass p f = .error e.error := by
  induction l generalizing q i with
  | nil => simp [sweep.go] at hgo
  | cons f l ih =>
    rw [List.nodup_cons] at hl
    rw [List.forall_mem_cons] at hsame
    rw [sweep.go, h.pass_eq p q f hfiles hagree hsame.1] at hgo
    split at hgo
    . next e' hpass =>
      rw [Except.error.injEq] at hgo
      subst hgo
      exact ⟨f, List.mem_cons_self, hpass⟩
    . next file hpass =>
      have hfiles' : (q.update f fun _ => file).files = p.files := hfiles
      have hsame' : ∀ f' ∈ l, (q.update f fun _ => file).heap f' = p.heap f' := by
        intro f' hf'
        rw [update_heap_of_ne (by rintro rfl; exact hl.1 hf'), hsame.2 f' hf']
      obtain ⟨f', hf', herror⟩ := ih hl.2 hfiles' (agree_update h hagree hpass) hsame' hgo
      exact ⟨f', List.mem_cons_of_mem _ hf', herror⟩

theorem sweep_ok (h : Stable pass Agree) (hsweep : sweep pass p = .ok q)
    : q.files = p.files ∧ (∀ f ∈ p.files, pass p f = .ok (q.heap f))
        ∧ ∀ f, f ∉ p.files → q.heap f = p.heap f :=
  sweep_go_ok h p.nodup rfl (fun _ => h.refl _) (fun _ _ => rfl) hsweep

theorem sweep_error (h : Stable pass Agree) (hsweep : sweep pass p = .error e)
    : ∃ f ∈ p.files, pass p f = .error e.error :=
  sweep_go_error h p.nodup rfl (fun _ => h.refl _) (fun _ _ => rfl) hsweep

theorem sweep_go_fixed (h : ∀ f ∈ l, pass p f = .ok (p.heap f)) : sweep.go pass p l i = .ok p := by
  induction l generalizing i with
  | nil => rfl
  | cons f l ih =>
    rw [List.forall_mem_cons] at h
    rw [sweep.go, h.1]
    simp only [update_self]
    exact ih h.2

theorem sweep_fixed (h : ∀ f ∈ p.files, pass p f = .ok (p.heap f)) : sweep pass p = .ok p :=
  sweep_go_fixed h

/-! A pass over the items of a list. -/

theorem mapM_spec {α β ε : Type} (g : α → Except ε β) (l : List α)
    : (∃ l', l.mapM g = .ok l' ∧ List.Forall₂ (fun a b => g a = .ok b) l l')
        ∨ ∃ e, l.mapM g = .error e ∧ ∃ a ∈ l, g a = .error e := by
  induction l with
  | nil => exact .inl ⟨[], rfl, .nil⟩
  | cons a l ih =>
    rw [List.mapM_cons]
    cases ha : g a with
    | error e => exact .inr ⟨e, rfl, a, List.mem_cons_self, ha⟩
    | ok b =>
      rcases ih with ⟨l', hl', hforall⟩ | ⟨e, he, a', ha', herror⟩
      . exact .inl ⟨b :: l', by simp [hl', bind, Except.bind, pure, Except.pure], .cons ha hforall⟩
      . exact .inr ⟨e, by simp [he, bind, Except.bind], a', List.mem_cons_of_mem _ ha', herror⟩

theorem forall₂_of_mapM {α β ε : Type} {g : α → Except ε β} {l : List α} {l' : List β}
    (h : l.mapM g = .ok l') : List.Forall₂ (fun a b => g a = .ok b) l l' := by
  rcases mapM_spec g l with ⟨l'', hl'', hforall⟩ | ⟨e, he, -⟩
  . rw [h, Except.ok.injEq] at hl''
    exact hl'' ▸ hforall
  . simp [h] at he

theorem mapM_of_forall₂ {α β ε : Type} {g : α → Except ε β} {l : List α} {l' : List β}
    (h : List.Forall₂ (fun a b => g a = .ok b) l l') : l.mapM g = .ok l' := by
  induction h with
  | nil => rfl
  | cons ha _ ih => simp [ha, ih, bind, Except.bind, pure, Except.pure]

theorem exists_mem_error {α β ε : Type} {g : α → Except ε β} {l : List α} {e : ε}
    (h : l.mapM g = .error e) : ∃ a ∈ l, g a = .error e := by
  rcases mapM_spec g l with ⟨l', hl', -⟩ | ⟨e', he', hex⟩
  . simp [h] at hl'
  . rw [h, Except.error.injEq] at he'
    exact he' ▸ hex

theorem forall₂_of_mem {α β : Type} {R S : α → β → Prop} {l : List α} {l' : List β}
    (h : List.Forall₂ R l l') (himp : ∀ a ∈ l, ∀ b, R a b → S a b) : List.Forall₂ S l l' := by
  induction h with
  | nil => exact .nil
  | cons hab _ ih =>
    rw [List.forall_mem_cons] at himp
    exact .cons (himp.1 _ hab) (ih himp.2)

theorem exists_of_forall₂ {α β : Type} {R : α → β → Prop} {l : List α} {l' : List β}
    (h : List.Forall₂ R l l') {a : α} (ha : a ∈ l) : ∃ b, R a b := by
  induction h with
  | nil => simp at ha
  | cons hab _ ih =>
    rcases List.mem_cons.mp ha with rfl | ha
    . exact ⟨_, hab⟩
    . exact ih ha

theorem exists_of_forall₂_mem {α β : Type} {R : α → β → Prop} {l : List α} {l' : List β}
    (h : List.Forall₂ R l l') {a : α} (ha : a ∈ l) : ∃ b ∈ l', R a b := by
  induction h with
  | nil => simp at ha
  | cons hab _ ih =>
    rcases List.mem_cons.mp ha with rfl | ha
    . exact ⟨_, List.mem_cons_self, hab⟩
    . obtain ⟨b, hb, hab⟩ := ih ha
      exact ⟨b, List.mem_cons_of_mem _ hb, hab⟩

theorem forall₂_unique {α β : Type} {R S : α → β → Prop} {l : List α} {l' l'' : List β}
    (h : List.Forall₂ R l l') (h' : List.Forall₂ S l l'')
    (himp : ∀ a ∈ l, ∀ b c, R a b → S a c → c = b) : l'' = l' := by
  induction h generalizing l'' with
  | nil =>
    cases h'
    rfl
  | cons hab _ ih =>
    cases h' with
    | cons hac h' =>
      rw [List.forall_mem_cons] at himp
      rw [himp.1 _ _ hab hac, ih h' himp.2]

end Gremlin.Pool
