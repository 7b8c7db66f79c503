import Rulebook.Bindings
import Rulebook.Json
import Rulebook.Proofs.Outcome

/-!
# Trimming a tree

A stored tree can hold more than is read from it. How much depends on what the tree is read as, and
a `Form` says that: which members of an object are fields, and what their values are read as in
turn. `Json.Trims f` removes, anywhere in a tree that is read as `f`, one thing that is not read: a
member that is no field of the record it stands in, though it may be one of another record, or a
field that may be missing and is `null`.

A reader looks at a tree in four ways, and for each of them this module says what trimming changes:
as an object with members (`Trims.member?`), as an array (`Trims.elements?`), as a variant
(`Trims.variant?`), and as a record, which is an object or an array (`Trims.record?`).
-/

namespace Rulebook

namespace Json

/-- Induction on the size of trees. -/
theorem inductSmaller {motive : Json → Prop}
    (step : ∀ j, (∀ k, sizeOf k < sizeOf j → motive k) → motive j) (j : Json) : motive j :=
  (measure sizeOf).wf.induction j step

/-! ## Forms -/

/-- What a tree is read as. -/
inductive Form where
  /-- Something with no parts that are looked into, or something that is not read at all. -/
  | plain
  | list (element : Form)
  | record (fields : List (String × Form))
  /-- A variant, with the tags whose payloads are looked into. -/
  | variant (payloads : List (String × Form))
  | ty
  /-- An expression whose marks have the given fields. -/
  | expr (mark : List (String × Form))

namespace Form

/-- The kind of an expression whose marks have the given fields. -/
def kind (mark : List (String × Form)) : Form :=
  .variant
    [("Not", .expr mark),
      ("Call", .record [("name", .plain), ("args", .list (.expr mark))]),
      ("Binary", .record [("left", .expr mark), ("op", .plain), ("right", .expr mark)]),
      ("IfElse", .record
        [("cond", .expr mark), ("then_branch", .expr mark), ("else_branch", .expr mark)]),
      ("Assign", .record [("target", .plain), ("value", .expr mark)]),
      ("Chain", .record [("first", .expr mark), ("second", .expr mark)])]

/-- The members of an object that are read: the fields of a record, or the payload of a variant. -/
def members : Form → List (String × Form)
  | .plain | .list _ => []
  | .record fields => fields
  | .variant payloads => payloads
  | .ty => [("Function", .record [("params", .list .ty), ("ret", .ty)])]
  | .expr mark => ("kind", kind mark) :: mark

/-- The names of the members that are read, in order. -/
def names (f : Form) : List String := f.members.map Prod.fst

/-- Whether the members that are read are the fields of a record. -/
def isRecord : Form → Bool
  | .record _ | .expr _ => true
  | _ => false

/-- What the member of the given name is read as. -/
def part (f : Form) (name : String) : Form := (f.members.lookup name).getD .plain

/-- What the element at the given index is read as. A record can be the array of its fields. -/
def element : Form → ℕ → Form
  | .list f, _ => f
  | f, i => (f.names[i]?.map f.part).getD .plain

theorem mem_names {f g : Form} {name : String} (h : f.members.lookup name = some g) :
    name ∈ f.names := by
  by_contra hname
  have hnone : f.members.lookup name = none := by
    rw [List.lookup_eq_none_iff]
    intro p hp
    exact bne_iff_ne.2 fun heq => hname (heq ▸ List.mem_map_of_mem hp)
  rw [hnone] at h
  cases h

theorem lookup_members {f : Form} {name : String} (hname : name ∈ f.names) :
    f.members.lookup name = some (f.part name) := by
  cases h : f.members.lookup name with
  | some g => rw [part, h, Option.getD_some]
  | none =>
    obtain ⟨p, hp, rfl⟩ := List.mem_map.1 hname
    exact absurd (List.lookup_eq_none_iff.1 h p hp) (by simp)

theorem element_of_isRecord {f : Form} (hf : f.isRecord = true) {i : ℕ} {name : String}
    (hname : f.names[i]? = some name) : f.element i = f.part name := by
  cases f with
  | record | expr => rw [element, hname, Option.map_some, Option.getD_some]; nofun
  | plain | list | variant | ty => cases hf

end Form

/-! ## Trimming -/

/-- The names of the fields that may be missing. -/
def optionalNames : List String := ["recursion", "runtime"]

/-- The second tree is the first one without a member that is not needed to read it as the form. -/
inductive Trims : Form → Json → Json → Prop
  /-- A member that is no field of the record. -/
  | unknown {f : Form} {before after : List (String × Json)} {name : String} {v : Json}
    (hf : f.isRecord = true) (hname : name ∉ f.names) :
    Trims f (.object (before ++ (name, v) :: after)) (.object (before ++ after))
  /-- A field that may be missing, and is `null`. -/
  | absent {f : Form} {before after : List (String × Json)} {name : String}
    (hf : f.isRecord = true) (hname : name ∈ optionalNames)
    (honce : ∀ p ∈ before ++ after, p.1 ≠ name) :
    Trims f (.object (before ++ (name, .null) :: after)) (.object (before ++ after))
  /-- Any member, where no record is read. Two others stay, so that the object is no variant. -/
  | stray {f : Form} {before after : List (String × Json)} {name : String} {v : Json}
    (hf : f.isRecord = false) (hrest : 2 ≤ (before ++ after).length) :
    Trims f (.object (before ++ (name, v) :: after)) (.object (before ++ after))
  | member {f : Form} {before after : List (String × Json)} {name : String} {v w : Json} :
    Trims (f.part name) v w →
      Trims f (.object (before ++ (name, v) :: after)) (.object (before ++ (name, w) :: after))
  | element {f : Form} {before after : List Json} {v w : Json} :
    Trims (f.element before.length) v w →
      Trims f (.array (before ++ v :: after)) (.array (before ++ w :: after))

/-- One tree is the other, or the other is it without something that is not needed to read it. -/
def Keeps (f : Form) (v w : Json) : Prop := v = w ∨ Trims f v w

/-! ## Members -/

theorem val_lookupMember (name : String) (members : List (String × Json)) :
    (lookupMember name members).map Subtype.val = members.lookup name := by
  induction members with
  | nil => rfl
  | cons m members ih =>
    obtain ⟨key, v⟩ := m
    rw [lookupMember, Bindings.lookup_cons_eq_ite, ← ih]
    by_cases h : key = name
    · simp [h]
    · simp [h, Ne.symm h]

theorem val_member? (members : List (String × Json)) (name : String) :
    ((Json.object members).member? name).map Subtype.val = members.lookup name := by
  rw [← val_lookupMember, member?, Option.map_map]
  rfl

/-- A field of a record stays as it is, or is itself trimmed, or may be missing and is. -/
theorem Trims.lookup {f : Form} (hf : f.isRecord = true) {ms ms' : List (String × Json)}
    (h : Trims f (.object ms) (.object ms')) {name : String} {g : Form}
    (hname : f.members.lookup name = some g) :
    ms.lookup name = ms'.lookup name ∨
    (∃ v w, ms.lookup name = some v ∧ ms'.lookup name = some w ∧ Trims g v w) ∨
    name ∈ optionalNames ∧ ms.lookup name = some .null ∧ ms'.lookup name = none := by
  cases h with
  | @unknown _ before after n v _ hn =>
    have hne : name ≠ n := by
      rintro rfl
      exact hn (Form.mem_names hname)
    refine .inl ?_
    rw [List.lookup_append, Bindings.lookup_cons_eq_ite, if_neg hne, ← List.lookup_append]
  | @absent _ before after n _ hn honce =>
    by_cases heq : name = n
    · subst heq
      have hnone : (before ++ after).lookup name = none := by
        rw [List.lookup_eq_none_iff]
        intro p hp
        exact bne_iff_ne.2 (honce p hp).symm
      have hbefore : before.lookup name = none := by
        rw [List.lookup_append, Option.or_eq_none_iff] at hnone
        exact hnone.1
      refine .inr (.inr ⟨hn, ?_, hnone⟩)
      rw [List.lookup_append, Bindings.lookup_cons_eq_ite, if_pos rfl, hbefore, Option.none_or]
    · refine .inl ?_
      rw [List.lookup_append, Bindings.lookup_cons_eq_ite, if_neg heq, ← List.lookup_append]
  | stray hnone => exact absurd hf (by rw [hnone]; decide)
  | @member _ before after n v w hvw =>
    simp only [List.lookup_append, Bindings.lookup_cons_eq_ite]
    cases before.lookup name with
    | some u => exact .inl rfl
    | none =>
      split
      · next heq =>
        subst heq
        rw [Form.part, hname, Option.getD_some] at hvw
        exact .inr (.inl ⟨v, w, rfl, rfl, hvw⟩)
      · exact .inl rfl

/-- What becomes of a field: it is missing, or it is kept, or it was `null` and may be missing. -/
inductive KeepsField {j j' : Json} (name : String) (f : Form) :
    Option j.Part → Option j'.Part → Prop
  | missing : KeepsField name f none none
  | kept {p : j.Part} {p' : j'.Part} : Keeps f p.val p'.val → KeepsField name f (some p) (some p')
  | absent {p : j.Part} : name ∈ optionalNames → p.val = .null → KeepsField name f (some p) none

theorem Trims.member? {f : Form} (hf : f.isRecord = true) {j j' : Json} (h : Trims f j j')
    {name : String} {g : Form} (hname : f.members.lookup name = some g) :
    KeepsField name g (j.member? name) (j'.member? name) := by
  cases j with
  | object ms =>
    obtain ⟨ms', rfl⟩ : ∃ ms', j' = .object ms' := by
      cases h <;> exact ⟨_, rfl⟩
    have hlookup := h.lookup hf hname
    rw [← val_member?, ← val_member?] at hlookup
    generalize (Json.object ms).member? name = p, (Json.object ms').member? name = p' at hlookup ⊢
    rcases hlookup with heq | ⟨v, w, hv, hw, hvw⟩ | ⟨hoptional, hnull, hnone⟩
    · cases p with
      | none =>
        obtain rfl : p' = none := by simpa using heq.symm
        exact .missing
      | some p =>
        obtain ⟨p', rfl, hval⟩ := Option.map_eq_some_iff.1 heq.symm
        exact .kept (.inl hval.symm)
    · obtain ⟨p, rfl, rfl⟩ := Option.map_eq_some_iff.1 hv
      obtain ⟨p', rfl, rfl⟩ := Option.map_eq_some_iff.1 hw
      exact .kept (.inr hvw)
    · obtain ⟨p, rfl, hval⟩ := Option.map_eq_some_iff.1 hnull
      obtain rfl := Option.map_eq_none_iff.1 hnone
      exact .absent hoptional hval
  | array xs =>
    cases h
    exact .missing
  | _ => cases h

/-! ## Elements -/

theorem getElem?_of_unattach {j : Json} {ps : List j.Part} {xs : List Json}
    (hval : ps.unattach = xs) {i : ℕ} {p : j.Part} (hp : ps[i]? = some p) :
    xs[i]? = some p.val := by
  rw [← hval, List.getElem?_unattach, hp, Option.map_some]

/-- The elements of an array stay as they are, or are themselves trimmed. -/
theorem Trims.getElem? {f : Form} {xs ys : List Json} (h : Trims f (.array xs) (.array ys)) {i : ℕ}
    {v w : Json} (hv : xs[i]? = some v) (hw : ys[i]? = some w) : Keeps (f.element i) v w := by
  cases h with
  | @element _ before after v' w' hvw =>
    by_cases hi : i = before.length
    · subst hi
      rw [List.getElem?_append_right (Nat.le_refl _), Nat.sub_self,
        List.getElem?_cons_zero] at hv hw
      rw [← Option.some.inj hv, ← Option.some.inj hw]
      exact .inr hvw
    · -- at any other index both arrays have the same element
      refine .inl (Option.some.inj ?_)
      rw [← hv, ← hw, List.getElem?_append, List.getElem?_append]
      split
      · rfl
      · obtain ⟨k, hk⟩ : ∃ k, i - before.length = k + 1 := ⟨i - before.length - 1, by omega⟩
        rw [hk, List.getElem?_cons_succ, List.getElem?_cons_succ]

theorem Trims.elements? {f : Form} {j j' : Json} (h : Trims f j j') :
    Option.Rel (fun ps ps' => ps.length = ps'.length ∧
        ∀ (i : ℕ) p p', ps[i]? = some p → ps'[i]? = some p' → Keeps (f.element i) p.val p'.val)
      j.elements? j'.elements? := by
  cases h with
  | @element _ before after v w hvw =>
    obtain ⟨ps, hps, hval⟩ := exists_elements? (before ++ v :: after)
    obtain ⟨ps', hps', hval'⟩ := exists_elements? (before ++ w :: after)
    have hlen : ps.length = ps'.length := by
      rw [← List.length_unattach, hval, ← List.length_unattach (l := ps'), hval',
        List.length_append, List.length_append, List.length_cons, List.length_cons]
    rw [hps, hps']
    refine .some ⟨hlen, fun i p p' hp hp' => ?_⟩
    exact (Trims.element hvw).getElem? (getElem?_of_unattach hval hp)
      (getElem?_of_unattach hval' hp')
  | _ => exact .none

/-- The elements of a list are all read as the same form. -/
theorem Trims.listElements? {f : Form} {j j' : Json} (h : Trims (.list f) j j') :
    Option.Rel (List.Forall₂ fun p p' => Keeps f p.val p'.val) j.elements? j'.elements? := by
  refine rel_imp ?_ h.elements?
  rintro ps ps' ⟨hlen, hkeeps⟩
  refine List.forall₂_iff_get.2 ⟨hlen, fun i hi hi' => ?_⟩
  exact hkeeps i _ _ (List.getElem?_eq_getElem hi) (List.getElem?_eq_getElem hi')

/-! ## Variants and records -/

/-- Where no record is read, an object that loses a member is no variant, before and after. -/
theorem Trims.variant? {f : Form} (hf : f.isRecord = false) {j j' : Json} (h : Trims f j j') :
    (j.variant? = none ∧ j'.variant? = none) ∨
    ∃ tag v w hv hw, j.variant? = some (tag, some ⟨v, hv⟩) ∧
      j'.variant? = some (tag, some ⟨w, hw⟩) ∧ Trims (f.part tag) v w := by
  have hmany : ∀ {ms : List (String × Json)}, 2 ≤ ms.length → (Json.object ms).variant? = none := by
    intro ms hms
    match ms, hms with
    | _ :: _ :: _, _ => rfl
  cases h with
  | unknown hrecord | absent hrecord => exact absurd hrecord (by rw [hf]; decide)
  | @stray _ before after n v _ hrest =>
    exact .inl ⟨hmany (by simp at hrest ⊢; omega), hmany hrest⟩
  | @member _ before after n v w hvw =>
    cases before with
    | cons p before => exact .inl ⟨hmany (by simp; omega), hmany (by simp; omega)⟩
    | nil =>
      cases after with
      | cons p after => exact .inl ⟨hmany (by simp), hmany (by simp)⟩
      | nil => exact .inr ⟨n, v, w, _, _, rfl, rfl, hvw⟩
  | element => exact .inl ⟨rfl, rfl⟩

theorem Trims.isBare_left {f : Form} {v w : Json} (h : Trims f v w) {k : Json}
    (hv : sizeOf v < sizeOf k) :
    isBare (some ⟨v, hv⟩ : Option k.Part) = false := by
  cases h <;> rfl

theorem Trims.isBare_right {f : Form} {v w : Json} (h : Trims f v w) {k : Json}
    (hw : sizeOf w < sizeOf k) :
    isBare (some ⟨w, hw⟩ : Option k.Part) = false := by
  cases h <;> rfl

/-- What becomes of the fields of a record of the form. -/
inductive KeepsFields {j j' : Json} (f : Form) :
    List String → List (Option j.Part) → List (Option j'.Part) → Prop
  | nil : KeepsFields f [] [] []
  | cons {name : String} {names : List String} {p : Option j.Part} {p' : Option j'.Part}
    {ps : List (Option j.Part)} {ps' : List (Option j'.Part)} :
    KeepsField name (f.part name) p p' → KeepsFields f names ps ps' →
      KeepsFields f (name :: names) (p :: ps) (p' :: ps')

theorem keepsFields_of_elements {f : Form} {j j' : Json} {names : List String} {ps : List j.Part}
    {ps' : List j'.Part} (hlen : ps.length = names.length) (hlen' : ps'.length = names.length)
    (h : ∀ (i : ℕ) name (p : j.Part) (p' : j'.Part), names[i]? = some name → ps[i]? = some p →
      ps'[i]? = some p' → Keeps (f.part name) p.val p'.val) :
    KeepsFields f names (ps.map some) (ps'.map some) := by
  induction names generalizing ps ps' with
  | nil =>
    obtain rfl := List.length_eq_zero_iff.1 hlen
    obtain rfl := List.length_eq_zero_iff.1 hlen'
    exact .nil
  | cons name names ih =>
    obtain ⟨p, ps, rfl⟩ := List.exists_cons_of_length_eq_add_one hlen
    obtain ⟨p', ps', rfl⟩ := List.exists_cons_of_length_eq_add_one hlen'
    have hrest := ih (Nat.succ.inj hlen) (Nat.succ.inj hlen') fun i => h (i + 1)
    exact .cons (.kept (h 0 name p p' rfl rfl rfl)) hrest

theorem Trims.record? {f : Form} (hf : f.isRecord = true) {j j' : Json} (h : Trims f j j') :
    Option.Rel (KeepsFields f f.names) (j.record? f.names) (j'.record? f.names) := by
  cases j with
  | object ms =>
    obtain ⟨ms', rfl⟩ : ∃ ms', j' = .object ms' := by
      cases h <;> exact ⟨_, rfl⟩
    have hfields : ∀ names ⊆ f.names, KeepsFields f names
        (names.map (Json.object ms).member?) (names.map (Json.object ms').member?) := by
      intro names hnames
      induction names with
      | nil => exact .nil
      | cons name names ih =>
        obtain ⟨hname, hnames⟩ := List.cons_subset.1 hnames
        exact .cons (h.member? hf (Form.lookup_members hname)) (ih hnames)
    exact .some (hfields f.names fun _ hname => hname)
  | array xs =>
    obtain ⟨ys, rfl, hlen⟩ : ∃ ys, j' = .array ys ∧ xs.length = ys.length := by
      cases h
      exact ⟨_, rfl, by simp⟩
    have helements := h.elements?
    obtain ⟨ps, hps, hval⟩ := exists_elements? xs
    obtain ⟨ps', hps', -⟩ := exists_elements? ys
    have hlen' : ps.length = xs.length := by
      simpa using congrArg List.length hval
    rw [hps, hps'] at helements
    rw [Json.record?, Json.record?, hps, hps', ← hlen]
    split
    · next hnames =>
      cases helements with
      | some hkeeps =>
        obtain ⟨hlength, hkeeps⟩ := hkeeps
        have hps : ps.length = f.names.length := hlen'.trans hnames
        refine .some (keepsFields_of_elements hps (hlength.symm.trans hps) ?_)
        intro i name p p' hname hp hp'
        rw [← Form.element_of_isRecord hf hname]
        exact hkeeps i p p' hp hp'
    · exact .none
  | _ => cases h

/-- To compare what is read from two records, compare what is read from their fields. -/
@[elab_as_elim]
theorem Trims.recordCases {f : Form} {j j' : Json} (h : Trims f j j') (names : List String)
    (hf : f.isRecord = true) (hnames : f.names = names)
    {motive : Option (List (Option j.Part)) → Option (List (Option j'.Part)) → Prop}
    (none : motive none none)
    (some : ∀ ps ps', KeepsFields f names ps ps' → motive (some ps) (some ps')) :
    motive (j.record? names) (j'.record? names) := by
  subst hnames
  have hrecord := h.record? hf
  generalize j.record? f.names = fields, j'.record? f.names = fields' at hrecord ⊢
  cases hrecord with
  | none => exact none
  | some hkeeps => exact some _ _ hkeeps

end Json

end Rulebook
