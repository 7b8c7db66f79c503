import Mathlib.Data.List.Forall2

/-!
# Outcomes

A stage of the compiler is a computation in `Except`. What its success says is read off one
binding at a time: `bind_eq_ok` opens a `do` block, `mapM_eq_ok` a traversal, element by element.

What a stage fails with is described by `FailsWith`, which has a rule for `pure`, for `bind` and for
traversals, so that only the steps that really fail have to be looked at. `FailsFirst` says more: it
lists what could be found wrong, in order, and the stage fails with the first of it.

Two stages are compared by `Leads` (where the first succeeds, so does the second) and `Together`
(either both succeed or neither); each has a rule for `pure`, for `bind` and for a traversal.
-/

namespace Rulebook

variable {ε α β : Type}

theorem bind_eq_ok {x : Except ε α} {f : α → Except ε β} {b : β} :
    x >>= f = .ok b ↔ ∃ a, x = .ok a ∧ f a = .ok b := by
  cases x with
  | error e => exact ⟨nofun, nofun⟩
  | ok a =>
    constructor
    · intro h
      exact ⟨a, rfl, h⟩
    · rintro ⟨a', ha, h⟩
      cases ha
      exact h

theorem bind_eq_error {x : Except ε α} {f : α → Except ε β} {e : ε} :
    x >>= f = .error e ↔ x = .error e ∨ ∃ a, x = .ok a ∧ f a = .error e := by
  cases x with
  | error e' =>
    constructor
    · intro h
      cases h
      exact .inl rfl
    · rintro (h | ⟨a, ha, -⟩)
      · cases h
        rfl
      · cases ha
  | ok a =>
    constructor
    · intro h
      exact .inr ⟨a, rfl, h⟩
    · rintro (h | ⟨a', ha, h⟩)
      · cases h
      · cases ha
        exact h

theorem pure_eq_ok {a b : α} : (pure a : Except ε α) = .ok b ↔ a = b := by
  constructor
  · intro h
    cases h
    rfl
  · rintro rfl
    rfl

theorem mapM_eq_ok {f : α → Except ε β} {as : List α} {bs : List β} :
    as.mapM f = .ok bs ↔ List.Forall₂ (fun a b => f a = .ok b) as bs := by
  induction as generalizing bs with
  | nil => rw [List.mapM_nil, pure_eq_ok, List.forall₂_nil_left_iff, eq_comm]
  | cons a as ih =>
    simp only [List.mapM_cons, bind_eq_ok, pure_eq_ok, ih, List.forall₂_cons_left_iff]
    constructor
    · rintro ⟨b, hb, cs, hcs, rfl⟩
      exact ⟨b, cs, hb, hcs, rfl⟩
    · rintro ⟨b, cs, hb, hcs, rfl⟩
      exact ⟨b, hb, cs, hcs, rfl⟩

/-- A traversal fails where its first element does that fails. -/
theorem mapM_eq_error {f : α → Except ε β} {as : List α} {e : ε} :
    as.mapM f = .error e ↔ ∃ before a after, as = before ++ a :: after ∧
      (∀ b ∈ before, ∃ c, f b = .ok c) ∧ f a = .error e := by
  induction as with
  | nil =>
    constructor
    · intro h
      cases h
    · rintro ⟨before, a, after, h, -⟩
      simp at h
  | cons a as ih =>
    rw [List.mapM_cons, bind_eq_error]
    constructor
    · rintro (h | ⟨b, hb, h⟩)
      · exact ⟨[], a, as, rfl, nofun, h⟩
      · rcases bind_eq_error.1 h with h | ⟨_, _, h⟩
        · obtain ⟨before, c, after, rfl, hbefore, hc⟩ := ih.1 h
          exact ⟨a :: before, c, after, rfl, List.forall_mem_cons.2 ⟨⟨b, hb⟩, hbefore⟩, hc⟩
        · cases h
    · rintro ⟨before, c, after, has, hbefore, hc⟩
      cases before with
      | nil =>
        obtain ⟨rfl, rfl⟩ := List.cons.inj has
        exact .inl hc
      | cons b before =>
        obtain ⟨rfl, rfl⟩ := List.cons.inj has
        obtain ⟨⟨d, hd⟩, hbefore⟩ := List.forall_mem_cons.1 hbefore
        exact .inr ⟨d, hd, bind_eq_error.2 (.inl (ih.2 ⟨before, c, after, rfl, hbefore, hc⟩))⟩

theorem mapM_congr {f g : α → Except ε β} {as : List α} (h : ∀ a ∈ as, f a = g a) :
    as.mapM f = as.mapM g := by
  induction as with
  | nil => rfl
  | cons a as ih =>
    rw [List.mapM_cons, List.mapM_cons, h a List.mem_cons_self,
      ih fun b hb => h b (List.mem_cons_of_mem _ hb)]

/-- A relation that every element stands in relates the whole list. -/
theorem exists_forall₂ {R : α → β → Prop} {as : List α} (h : ∀ a ∈ as, ∃ b, R a b) :
    ∃ bs, List.Forall₂ R as bs := by
  induction as with
  | nil => exact ⟨[], .nil⟩
  | cons a as ih =>
    obtain ⟨b, hb⟩ := h a List.mem_cons_self
    obtain ⟨bs, hbs⟩ := ih fun c hc => h c (List.mem_cons_of_mem _ hc)
    exact ⟨b :: bs, .cons hb hbs⟩

/-- A third list, related to two that are related to each other. -/
theorem exists_forall₂_both {γ : Type} {R : α → β → Prop} {S : α → γ → Prop} {T : β → γ → Prop}
    {as : List α} {bs : List β} (h : List.Forall₂ R as bs)
    (hstep : ∀ a, ∀ b ∈ bs, R a b → ∃ c, S a c ∧ T b c) :
    ∃ cs, List.Forall₂ S as cs ∧ List.Forall₂ T bs cs := by
  induction h with
  | nil => exact ⟨[], .nil, .nil⟩
  | cons hab _ ih =>
    obtain ⟨c, hac, hbc⟩ := hstep _ _ List.mem_cons_self hab
    obtain ⟨cs, has, hbs⟩ := ih fun a b hb => hstep a b (List.mem_cons_of_mem _ hb)
    exact ⟨c :: cs, .cons hac has, .cons hbc hbs⟩

theorem exists_mem_left {R : α → β → Prop} {as : List α} {bs : List β} {b : β}
    (h : List.Forall₂ R as bs) (hb : b ∈ bs) : ∃ a ∈ as, R a b := by
  obtain ⟨i, hi, rfl⟩ := List.getElem_of_mem hb
  have hi' : i < as.length := by rwa [h.length_eq]
  exact ⟨as[i], List.getElem_mem hi', h.get hi' hi⟩

theorem exists_mem_right {R : α → β → Prop} {as : List α} {bs : List β} {a : α}
    (h : List.Forall₂ R as bs) (ha : a ∈ as) : ∃ b ∈ bs, R a b :=
  exists_mem_left h.flip ha

/-- A relation that follows, at the elements of a list, from another. -/
theorem forall₂_of_mem {R S : α → β → Prop} {as : List α} {bs : List β}
    (h : List.Forall₂ R as bs) (hRS : ∀ a ∈ as, ∀ {b}, R a b → S a b) : List.Forall₂ S as bs := by
  induction h with
  | nil => exact .nil
  | cons hab _ ih =>
    exact .cons (hRS _ List.mem_cons_self hab) (ih fun a ha => hRS a (List.mem_cons_of_mem _ ha))

/-- The list that is related to a list in two parts. -/
theorem exists_split {R : α → β → Prop} {as : List α} {before after : List β} {b : β}
    (h : List.Forall₂ R as (before ++ b :: after)) :
    ∃ before' a after', as = before' ++ a :: after' ∧ R a b ∧ List.Forall₂ R after' after := by
  induction before generalizing as with
  | nil =>
    cases h with
    | cons hab h => exact ⟨[], _, _, rfl, hab, h⟩
  | cons c before ih =>
    cases h with
    | cons _ h =>
      obtain ⟨before', a, after', rfl, hab, h⟩ := ih h
      exact ⟨_ :: before', a, after', rfl, hab, h⟩

/-- Two passes over a list, element by element. -/
theorem forall₂_comp {γ : Type} {R : α → β → Prop} {S : β → γ → Prop} {as : List α} {bs : List β}
    {cs : List γ} (h : List.Forall₂ R as bs) (h' : List.Forall₂ S bs cs) :
    List.Forall₂ (fun a c => ∃ b, R a b ∧ S b c) as cs := by
  induction h generalizing cs with
  | nil =>
    cases h'
    exact .nil
  | cons hab _ ih =>
    cases h' with
    | cons hbc h' => exact .cons ⟨_, hab, hbc⟩ (ih h')

/-- A traversal of an optional value. -/
theorem optionMapM_eq_ok {f : α → Except ε β} {a : Option α} {b : Option β} :
    a.mapM f = .ok b ↔ Option.Rel (fun a b => f a = .ok b) a b := by
  cases a with
  | none =>
    change (pure none : Except ε (Option β)) = .ok b ↔ _
    rw [pure_eq_ok]
    constructor
    · rintro rfl
      exact .none
    · intro h
      cases h
      rfl
  | some a =>
    change (f a >>= fun x => pure (some x)) = .ok b ↔ _
    simp only [bind_eq_ok, pure_eq_ok]
    constructor
    · rintro ⟨c, hc, rfl⟩
      exact .some hc
    · intro h
      cases h with
      | some hc => exact ⟨_, hc, rfl⟩

theorem rel_imp {R S : α → β → Prop} (h : ∀ a b, R a b → S a b) {a : Option α} {b : Option β}
    (hab : Option.Rel R a b) : Option.Rel S a b := by
  cases hab with
  | none => exact .none
  | some hab => exact .some (h _ _ hab)

theorem exists_rel {R : α → β → Prop} {a : Option α} (h : ∀ a' ∈ a, ∃ b, R a' b) :
    ∃ b, Option.Rel R a b := by
  cases a with
  | none => exact ⟨none, .none⟩
  | some a =>
    obtain ⟨b, hb⟩ := h a rfl
    exact ⟨some b, .some hb⟩

/-- A relation that follows, at the two values, from another. -/
theorem rel_of_mem {R S : α → β → Prop} {a : Option α} {b : Option β} (hab : Option.Rel R a b)
    (h : ∀ a' ∈ a, ∀ b' ∈ b, R a' b' → S a' b') : Option.Rel S a b := by
  cases hab with
  | none => exact .none
  | some hab => exact .some (h _ rfl _ rfl hab)

theorem isSome_of_rel {R : α → β → Prop} {a : Option α} {b : Option β} (h : Option.Rel R a b) :
    b.isSome = a.isSome := by
  cases h <;> rfl

theorem exists_of_rel_some {R : α → β → Prop} {a : Option α} {b : β}
    (h : Option.Rel R a (some b)) : ∃ a', a = some a' ∧ R a' b := by
  cases h with
  | some h => exact ⟨_, rfl, h⟩

theorem eq_none_of_rel {R : α → β → Prop} {b : Option β} (h : Option.Rel R none b) : b = none := by
  cases h
  rfl

theorem eq_some_of_rel {R : α → β → Prop} {a : α} {b : Option β} (h : Option.Rel R (some a) b) :
    ∃ b', b = some b' ∧ R a b' := by
  cases h with
  | some h => exact ⟨_, rfl, h⟩

theorem rel_getD {R : α → β → Prop} {a : Option α} {b : Option β} (h : Option.Rel R a b) {c : α}
    {d : β} (hcd : R c d) : R (a.getD c) (b.getD d) := by
  cases h with
  | none => exact hcd
  | some h => exact h

/-! ## Failures -/

/-- If the computation fails, then with something that has the property `P`. -/
def FailsWith (P : ε → Prop) (x : Except ε α) : Prop := ∀ e, x = .error e → P e

namespace FailsWith

variable {P Q : ε → Prop} {x : Except ε α}

theorem pure {a : α} : FailsWith P (Pure.pure a : Except ε α) := nofun

theorem bind {f : α → Except ε β} (hx : FailsWith P x) (hf : ∀ a, x = .ok a → FailsWith P (f a)) :
    FailsWith P (x >>= f) := by
  intro e he
  rcases bind_eq_error.1 he with he | ⟨a, ha, he⟩
  · exact hx e he
  · exact hf a ha e he

theorem imp (hx : FailsWith P x) (hPQ : ∀ e, P e → Q e) : FailsWith Q x :=
  fun e he => hPQ e (hx e he)

theorem mapM {f : α → Except ε β} {as : List α} (h : ∀ a ∈ as, FailsWith P (f a)) :
    FailsWith P (as.mapM f) := by
  intro e he
  obtain ⟨before, a, after, rfl, -, ha⟩ := mapM_eq_error.1 he
  exact h a (by simp) e ha

theorem optionMapM {f : α → Except ε β} {a : Option α} (h : ∀ a' ∈ a, FailsWith P (f a')) :
    FailsWith P (a.mapM f) := by
  cases a with
  | none => exact .pure
  | some a => exact (h a rfl).bind fun _ _ => .pure

end FailsWith

/-- The computation fails with the first of the listed errors; where none is listed, it succeeds. -/
def FailsFirst (x : Except ε α) : List ε → Prop
  | [] => ∃ a, x = .ok a
  | e :: _ => x = .error e

namespace FailsFirst

variable {x : Except ε α} {es es' : List ε}

theorem pure {a : α} : FailsFirst (Pure.pure a : Except ε α) [] := ⟨a, rfl⟩

theorem eq_error_iff (h : FailsFirst x es) {e : ε} : x = .error e ↔ es.head? = some e := by
  cases es with
  | nil =>
    obtain ⟨a, rfl⟩ := h
    simp
  | cons e' es =>
    obtain rfl : x = .error e' := h
    simp

/-- What a computation goes on with fails only if the computation itself does not. -/
theorem bind {f : α → Except ε β} (hx : FailsFirst x es)
    (hf : ∀ a, x = .ok a → FailsFirst (f a) es') : FailsFirst (x >>= f) (es ++ es') := by
  cases es with
  | nil =>
    obtain ⟨a, rfl⟩ := hx
    exact hf a rfl
  | cons e es =>
    obtain rfl : x = .error e := hx
    rfl

theorem bind_pure {f : α → β} (hx : FailsFirst x es) :
    FailsFirst (x >>= fun a => Pure.pure (f a)) es := by
  rw [← List.append_nil es]
  exact hx.bind fun _ _ => .pure

theorem mapM {f : α → Except ε β} {g : α → List ε} {as : List α}
    (h : ∀ a ∈ as, FailsFirst (f a) (g a)) : FailsFirst (as.mapM f) (as.flatMap g) := by
  induction as with
  | nil => exact .pure
  | cons a as ih =>
    rw [List.mapM_cons, List.flatMap_cons]
    have hrest := ih fun b hb => h b (List.mem_cons_of_mem _ hb)
    exact (h a List.mem_cons_self).bind fun _ _ => hrest.bind_pure

end FailsFirst

/-! ## Two computations -/

/-- Where the first computation succeeds, so does the second, and `R` relates the results. -/
def Leads (R : α → β → Prop) (x : Except ε α) (y : Except ε β) : Prop :=
  ∀ a, x = .ok a → ∃ b, y = .ok b ∧ R a b

namespace Leads

variable {γ δ : Type} {R : α → β → Prop} {S : γ → δ → Prop} {x : Except ε α} {y : Except ε β}

theorem pure {a : α} {b : β} (h : R a b) :
    Leads R (Pure.pure a : Except ε α) (Pure.pure b : Except ε β) := by
  rintro _ ⟨⟩
  exact ⟨b, rfl, h⟩

theorem bind {f : α → Except ε γ} {g : β → Except ε δ} (h : Leads R x y)
    (hfg : ∀ a b, R a b → Leads S (f a) (g b)) : Leads S (x >>= f) (y >>= g) := by
  intro c hc
  obtain ⟨a, ha, hc⟩ := bind_eq_ok.1 hc
  obtain ⟨b, rfl, hab⟩ := h a ha
  exact hfg a b hab c hc

theorem refl (x : Except ε α) : Leads Eq x x := fun a ha => ⟨a, ha, rfl⟩

/-- Going on with one result that both computations have. -/
theorem bind_of_eq {z : Except ε α} {f : α → Except ε γ} {g : α → Except ε δ} (h : Leads Eq x z)
    (hfg : ∀ a, Leads S (f a) (g a)) : Leads S (x >>= f) (z >>= g) :=
  h.bind fun a _ hab => hab ▸ hfg a

theorem mapM {f : α → Except ε γ} {g : β → Except ε δ} {as : List α} {bs : List β}
    (h : List.Forall₂ (fun a b => Leads S (f a) (g b)) as bs) :
    Leads (List.Forall₂ S) (as.mapM f) (bs.mapM g) := by
  induction h with
  | nil => exact .pure .nil
  | cons hab _ ih =>
    rw [List.mapM_cons, List.mapM_cons]
    exact hab.bind fun c d hcd => ih.bind fun cs ds hcs => .pure (.cons hcd hcs)

end Leads

/-- Either both computations succeed, and `R` relates the results, or both fail. -/
structure Together (R : α → β → Prop) (x : Except ε α) (y : Except ε β) : Prop where
  leads : Leads R x y
  leads_back : Leads (flip R) y x

namespace Together

variable {γ δ : Type} {R : α → β → Prop} {S : γ → δ → Prop} {x : Except ε α} {y : Except ε β}

theorem pure {a : α} {b : β} (h : R a b) :
    Together R (Pure.pure a : Except ε α) (Pure.pure b : Except ε β) :=
  ⟨.pure h, .pure h⟩

theorem error (e e' : ε) : Together R (.error e) (.error e') := ⟨nofun, nofun⟩

theorem refl (x : Except ε α) : Together Eq x x := by
  cases x with
  | error e => exact .error e e
  | ok a => exact .pure rfl

theorem imp {S : α → β → Prop} (h : Together R x y)
    (hRS : ∀ a b, x = .ok a → y = .ok b → R a b → S a b) : Together S x y := by
  constructor
  · intro a ha
    obtain ⟨b, hb, hab⟩ := h.leads a ha
    exact ⟨b, hb, hRS a b ha hb hab⟩
  · intro b hb
    obtain ⟨a, ha, hab⟩ := h.leads_back b hb
    exact ⟨a, ha, hRS a b ha hb hab⟩

theorem bind {f : α → Except ε γ} {g : β → Except ε δ} (h : Together R x y)
    (hfg : ∀ a b, R a b → Together S (f a) (g b)) : Together S (x >>= f) (y >>= g) :=
  ⟨h.leads.bind fun a b hab => (hfg a b hab).leads,
    h.leads_back.bind fun b a hab => (hfg a b hab).leads_back⟩

theorem mapM {f : α → Except ε γ} {g : β → Except ε δ} {as : List α} {bs : List β}
    (h : List.Forall₂ (fun a b => Together S (f a) (g b)) as bs) :
    Together (List.Forall₂ S) (as.mapM f) (bs.mapM g) := by
  refine ⟨.mapM (h.imp fun _ _ hab => hab.leads), fun ds hds => ?_⟩
  obtain ⟨cs, hcs, hrel⟩ := Leads.mapM (h.flip.imp fun _ _ hab => hab.leads_back) ds hds
  exact ⟨cs, hcs, hrel.flip⟩

/-- Computations that succeed where others do. -/
theorem congr {ε' : Type} {x' : Except ε' α} {y' : Except ε' β} (h : Together R x y)
    (hx : ∀ a, x' = .ok a ↔ x = .ok a) (hy : ∀ b, y' = .ok b ↔ y = .ok b) : Together R x' y' := by
  constructor
  · intro a ha
    obtain ⟨b, hb, hab⟩ := h.leads a ((hx a).1 ha)
    exact ⟨b, (hy b).2 hb, hab⟩
  · intro b hb
    obtain ⟨a, ha, hab⟩ := h.leads_back b ((hy b).1 hb)
    exact ⟨a, (hx a).2 ha, hab⟩

theorem optionMapM {f : α → Except ε γ} {g : β → Except ε δ} {a : Option α} {b : Option β}
    (h : Option.Rel (fun a b => Together S (f a) (g b)) a b) :
    Together (Option.Rel S) (a.mapM f) (b.mapM g) := by
  cases h with
  | none => exact .pure .none
  | some h => exact h.bind fun c d hcd => .pure (.some hcd)

/-- Computations whose results are equal. -/
theorem eq_ok_iff {y : Except ε α} (h : Together Eq x y) {a : α} : x = .ok a ↔ y = .ok a := by
  constructor
  · intro ha
    obtain ⟨_, hb, rfl⟩ := h.leads a ha
    exact hb
  · intro ha
    obtain ⟨_, hb, rfl⟩ := h.leads_back a ha
    exact hb

end Together

end Rulebook
