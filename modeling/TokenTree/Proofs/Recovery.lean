import TokenTree.Nesting

/-!
# The laws of recovery

What brackets that do not match become is subject to three laws (`Token.Recovered`). A closing
bracket is stray only where no bracket of its kind is open around it. Nothing follows a malformed
region that an opening bracket left. And no such region stands at the end of a block whose closing
bracket could have been its own.

The laws speak of tokens at any distance from each other. `Token.LawfulAll` says the same by
recursion on the tree, below the brackets that are open above it (`Token.lawfulAll_iff`).
-/

namespace TokenTree

/-- The kind of the bracket that a group starts with. -/
def GroupKind.opened? : GroupKind → Option Delimiter
  | block d => some d
  | error (.unclosed d) => some d
  | _ => none

/-- The group may stand where brackets of the kinds `above` are open, when its children end with
regions without closing brackets of the kinds `trail`. -/
def GroupKind.Allowed (above trail : List Delimiter) : GroupKind → Prop
  | block d => d ∉ trail
  | error (.stray d) => d ∉ above
  | _ => True

namespace Token

/-! ## The laws -/

/-- The kind of a token that may have children. -/
def groupKind? : Token → Option GroupKind
  | leaf .. => none
  | group kind .. => some kind

/-- The token is a block between brackets of that kind. -/
def IsBlock (t : Token) (d : Delimiter) : Prop := t.groupKind? = some (.block d)

/-- The token is the malformed region that an opening bracket of that kind left. -/
def IsUnclosed (t : Token) (d : Delimiter) : Prop := t.groupKind? = some (.error (.unclosed d))

/-- The token is a closing bracket of that kind without its opening one. -/
def IsStray (t : Token) (d : Delimiter) : Prop := t.groupKind? = some (.error (.stray d))

/-- The token stands in the forest, at any depth. -/
inductive Occurs (t : Token) : List Token → Prop
  | here {ts : List Token} (h : t ∈ ts) : Occurs t ts
  | inside {u : Token} {ts : List Token} (hu : u ∈ ts) (h : Occurs t u.children) : Occurs t ts

/-- The token is met on the way from the last of the tokens to its last child and so on, as long as
these are malformed regions that an opening bracket left. -/
inductive Trails (t : Token) : List Token → Prop
  | last {d : Delimiter} {ts : List Token} (h : ts.getLast? = some t) (ht : t.IsUnclosed d) :
    Trails t ts
  | deeper {u : Token} {d : Delimiter} {ts : List Token} (h : ts.getLast? = some u)
    (hu : u.IsUnclosed d) (ht : Trails t u.children) : Trails t ts

/-- Nothing follows a malformed region that an opening bracket left. -/
def UnclosedLast (siblings : List Token) : Prop :=
  ∀ before t after d, siblings = before ++ t :: after → t.IsUnclosed d → after = []

/-- A forest in which brackets that do not match are recovered from. -/
structure Recovered (tokens : List Token) : Prop where
  /-- A stray bracket is at no distance inside a region that a bracket of its kind opened. -/
  stray : ∀ a t d, Occurs a tokens → a.IsBlock d ∨ a.IsUnclosed d → Occurs t a.children →
    ¬ t.IsStray d
  /-- A region without its closing bracket is the last of its siblings. -/
  last : UnclosedLast tokens ∧ ∀ a, Occurs a tokens → UnclosedLast a.children
  /-- A block has at its end no region that its closing bracket could have closed. -/
  trail : ∀ b t d, Occurs b tokens → b.IsBlock d → Trails t b.children → ¬ t.IsUnclosed d

theorem occurs_nil {u : Token} : ¬ Occurs u [] := by
  intro h
  cases h with
  | here h => cases h
  | inside hu _ => cases hu

theorem occurs_cons {u t : Token} {ts : List Token} :
    Occurs u (t :: ts) ↔ u = t ∨ Occurs u t.children ∨ Occurs u ts := by
  constructor
  · intro h
    cases h with
    | here h =>
      rcases List.mem_cons.1 h with rfl | h
      · exact Or.inl rfl
      · exact Or.inr (Or.inr (.here h))
    | inside hv h =>
      rcases List.mem_cons.1 hv with rfl | hv
      · exact Or.inr (Or.inl h)
      · exact Or.inr (Or.inr (.inside hv h))
  · rintro (rfl | h | h)
    · exact .here List.mem_cons_self
    · exact .inside List.mem_cons_self h
    · cases h with
      | here h => exact .here (List.mem_cons_of_mem _ h)
      | inside hv h => exact .inside (List.mem_cons_of_mem _ hv) h

theorem unclosedLast_nil : UnclosedLast [] := by
  intro before t after d h _
  have hlen := congrArg List.length h
  simp at hlen

theorem unclosedLast_cons {t : Token} {ts : List Token} :
    UnclosedLast (t :: ts) ↔ (∀ d, t.IsUnclosed d → ts = []) ∧ UnclosedLast ts := by
  constructor
  · intro h
    refine ⟨?_, ?_⟩
    · intro d ht
      exact h [] t ts d rfl ht
    · intro before u after d hts hu
      have hsplit : t :: ts = (t :: before) ++ u :: after := by rw [hts, List.cons_append]
      exact h (t :: before) u after d hsplit hu
  · rintro ⟨ht, hts⟩ before u after d h hu
    cases before with
    | nil =>
      obtain ⟨rfl, rfl⟩ := List.cons.inj h
      exact ht d hu
    | cons v before =>
      obtain ⟨rfl, rfl⟩ := List.cons.inj h
      exact hts before u after d rfl hu

theorem recovered_nil : Recovered [] where
  stray := fun _ _ _ ha => absurd ha occurs_nil
  last := ⟨unclosedLast_nil, fun _ ha => absurd ha occurs_nil⟩
  trail := fun _ _ _ hb => absurd hb occurs_nil

/-- The laws for one more token: what they say of it, of its children and of the others. -/
theorem recovered_cons {t : Token} {ts : List Token} :
    Recovered (t :: ts) ↔
      (∀ d, t.IsBlock d ∨ t.IsUnclosed d → ∀ u, Occurs u t.children → ¬ u.IsStray d) ∧
      (∀ d, t.IsBlock d → ∀ u, Trails u t.children → ¬ u.IsUnclosed d) ∧
      (∀ d, t.IsUnclosed d → ts = []) ∧ Recovered t.children ∧ Recovered ts := by
  have hself : Occurs t (t :: ts) := occurs_cons.2 (Or.inl rfl)
  have hchild {a : Token} (ha : Occurs a t.children) : Occurs a (t :: ts) :=
    occurs_cons.2 (Or.inr (Or.inl ha))
  have hrest {a : Token} (ha : Occurs a ts) : Occurs a (t :: ts) :=
    occurs_cons.2 (Or.inr (Or.inr ha))
  constructor
  · intro h
    obtain ⟨hlast, hlasts⟩ := unclosedLast_cons.1 h.last.1
    refine ⟨?_, ?_, hlast, ⟨?_, ⟨h.last.2 t hself, ?_⟩, ?_⟩, ⟨?_, ⟨hlasts, ?_⟩, ?_⟩⟩
    · intro d ht u hu
      exact h.stray t u d hself ht hu
    · intro d ht u hu
      exact h.trail t u d hself ht hu
    · intro a u d ha
      exact h.stray a u d (hchild ha)
    · intro a ha
      exact h.last.2 a (hchild ha)
    · intro b u d hb
      exact h.trail b u d (hchild hb)
    · intro a u d ha
      exact h.stray a u d (hrest ha)
    · intro a ha
      exact h.last.2 a (hrest ha)
    · intro b u d hb
      exact h.trail b u d (hrest hb)
  · rintro ⟨hstray, htrail, hlast, hchildren, hothers⟩
    refine ⟨?_, ⟨unclosedLast_cons.2 ⟨hlast, hothers.last.1⟩, ?_⟩, ?_⟩
    · intro a u d ha hd hu
      rcases occurs_cons.1 ha with rfl | ha | ha
      · exact hstray d hd u hu
      · exact hchildren.stray a u d ha hd hu
      · exact hothers.stray a u d ha hd hu
    · intro a ha
      rcases occurs_cons.1 ha with rfl | ha | ha
      · exact hchildren.last.1
      · exact hchildren.last.2 a ha
      · exact hothers.last.2 a ha
    · intro b u d hb hd hu
      rcases occurs_cons.1 hb with rfl | hb | hb
      · exact htrail d hd u hu
      · exact hchildren.trail b u d hb hd hu
      · exact hothers.trail b u d hb hd hu

/-! ## The laws by recursion -/

mutual

/-- The kinds of the regions without closing brackets that end with the token. -/
def trail : Token → List Delimiter
  | group (.error (.unclosed d)) _ _ ts => d :: trailAll ts
  | _ => []

/-- The kinds of the regions without closing brackets that end with the last token. -/
def trailAll : List Token → List Delimiter
  | [] => []
  | [t] => trail t
  | _ :: t :: ts => trailAll (t :: ts)

end

mutual

/-- The token may stand where brackets of the kinds `above` are open. -/
def Lawful (above : List Delimiter) : Token → Prop
  | leaf .. => True
  | group k _ _ ts => k.Allowed above (trailAll ts) ∧ LawfulAll (k.opened?.toList ++ above) ts

/-- The tokens may stand one after the other where brackets of the kinds `above` are open. -/
def LawfulAll (above : List Delimiter) : List Token → Prop
  | [] => True
  | t :: ts => Lawful above t ∧ (trail t ≠ [] → ts = []) ∧ LawfulAll above ts

end

theorem trail_ne_nil_iff {t : Token} : trail t ≠ [] ↔ ∃ d, t.IsUnclosed d := by
  constructor
  · intro h
    unfold trail at h
    split at h
    · next d _ _ _ => exact ⟨d, rfl⟩
    · exact absurd rfl h
  · rintro ⟨d, hd⟩
    cases t with
    | leaf k s l => cases hd
    | group k s l ts =>
      cases hd
      simp [trail]

theorem trail_of_unclosed {t : Token} {d : Delimiter} (h : t.IsUnclosed d) :
    trail t = d :: trailAll t.children := by
  cases t with
  | leaf k s l => cases h
  | group k s l ts =>
    cases h
    rw [trail, children]

theorem trailAll_eq (ts : List Token) : trailAll ts = ts.getLast?.elim [] trail := by
  match ts with
  | [] => rfl
  | [t] => rfl
  | t :: u :: ts =>
    rw [trailAll, trailAll_eq (u :: ts), List.getLast?_cons_cons]

theorem mem_trailAll {ts : List Token} {t : Token} {d : Delimiter} (ht : t.IsUnclosed d)
    (h : Trails t ts) : d ∈ trailAll ts := by
  induction h with
  | last h ht' =>
    rw [trailAll_eq, h, Option.elim_some, trail_of_unclosed ht]
    exact List.mem_cons_self
  | deeper h hu _ ih =>
    rw [trailAll_eq, h, Option.elim_some, trail_of_unclosed hu]
    exact List.mem_cons_of_mem _ ih

mutual

theorem exists_trails_of_mem_trail {d : Delimiter} : (t : Token) → d ∈ trail t →
    ∃ u, Trails u [t] ∧ u.IsUnclosed d
  | leaf .., h => by
    rw [trail] at h
    · cases h
    · simp
  | group k s l ts, h => by
    obtain ⟨e, he⟩ := trail_ne_nil_iff.1 (List.ne_nil_of_mem h)
    rw [trail_of_unclosed he, children] at h
    rcases List.mem_cons.1 h with rfl | h
    · exact ⟨_, .last rfl he, he⟩
    · obtain ⟨u, hu, hd⟩ := exists_trails_of_mem_trailAll ts h
      exact ⟨u, .deeper rfl he hu, hd⟩

theorem exists_trails_of_mem_trailAll {d : Delimiter} : (ts : List Token) → d ∈ trailAll ts →
    ∃ u, Trails u ts ∧ u.IsUnclosed d
  | [], h => by cases h
  | [t], h => exists_trails_of_mem_trail t h
  | t :: u :: ts, h => by
    obtain ⟨v, hv, hd⟩ := exists_trails_of_mem_trailAll (u :: ts) h
    refine ⟨v, ?_, hd⟩
    have hlast : (t :: u :: ts).getLast? = (u :: ts).getLast? := List.getLast?_cons_cons
    cases hv with
    | last h hv => exact .last (hlast.trans h) hv
    | deeper h hw hv => exact .deeper (hlast.trans h) hw hv

end

theorem notMem_trailAll_iff {ts : List Token} {d : Delimiter} :
    d ∉ trailAll ts ↔ ∀ u, Trails u ts → ¬ u.IsUnclosed d := by
  constructor
  · intro h u hu hd
    exact h (mem_trailAll hd hu)
  · intro h hd
    obtain ⟨u, hu, hdu⟩ := exists_trails_of_mem_trailAll ts hd
    exact h u hu hdu

/-- What a group may be by itself, said of it as a token. -/
theorem allowed_iff {above : List Delimiter} {k : GroupKind} {s : Span} {l : Lexeme}
    {ts : List Token} : k.Allowed above (trailAll ts) ↔
      (∀ d, (group k s l ts).IsBlock d → ∀ u, Trails u ts → ¬ u.IsUnclosed d) ∧
        ∀ d ∈ above, ¬ (group k s l ts).IsStray d := by
  simp only [← notMem_trailAll_iff, IsBlock, IsStray, groupKind?, Option.some.injEq]
  cases k with
  | block d => simp [GroupKind.Allowed]
  | composite name => simp [GroupKind.Allowed]
  | error e =>
    cases e with
    | stray d =>
      simp only [GroupKind.Allowed, GroupKind.error.injEq, ErrorKind.stray.injEq, reduceCtorEq,
        false_implies, implies_true, true_and]
      constructor
      · intro h e he hde
        exact h (hde ▸ he)
      · intro h hd
        exact h d hd rfl
    | unclosed d => simp [GroupKind.Allowed]
    | unterminatedComment => simp [GroupKind.Allowed]

theorem opens_iff {k : GroupKind} {s : Span} {l : Lexeme} {ts : List Token} {d : Delimiter} :
    d ∈ k.opened?.toList ↔ (group k s l ts).IsBlock d ∨ (group k s l ts).IsUnclosed d := by
  simp only [IsBlock, IsUnclosed, groupKind?, Option.some.injEq, Option.mem_toList]
  cases k with
  | block e => simp [GroupKind.opened?]
  | composite name => simp [GroupKind.opened?]
  | error e => cases e <;> simp [GroupKind.opened?]

/-- What the laws say of one token and what is inside it. -/
def Fits (above : List Delimiter) (t : Token) : Prop :=
  (∀ d ∈ above, ¬ t.IsStray d ∧ ∀ u, Occurs u t.children → ¬ u.IsStray d) ∧
    (∀ d, t.IsBlock d ∨ t.IsUnclosed d → ∀ u, Occurs u t.children → ¬ u.IsStray d) ∧
    (∀ d, t.IsBlock d → ∀ u, Trails u t.children → ¬ u.IsUnclosed d) ∧ Recovered t.children

theorem fits_leaf {above : List Delimiter} {k : LeafKind} {s : Span} {l : Lexeme} :
    (leaf k s l).Fits above :=
  ⟨fun _ _ => ⟨nofun, fun _ hu => absurd hu occurs_nil⟩, fun _ _ _ hu => absurd hu occurs_nil,
    nofun, recovered_nil⟩

theorem fits_group_iff {above : List Delimiter} {k : GroupKind} {s : Span} {l : Lexeme}
    {ts : List Token} :
    (group k s l ts).Fits above ↔ k.Allowed above (trailAll ts) ∧
      (∀ d ∈ k.opened?.toList ++ above, ∀ u, Occurs u ts → ¬ u.IsStray d) ∧ Recovered ts := by
  rw [allowed_iff]
  constructor
  · rintro ⟨habove, hopens, hblock, hchildren⟩
    refine ⟨⟨hblock, ?_⟩, ?_, hchildren⟩
    · intro d hd
      exact (habove d hd).1
    · intro d hd
      rcases List.mem_append.1 hd with hd | hd
      · exact hopens d (opens_iff.1 hd)
      · exact (habove d hd).2
  · rintro ⟨⟨hblock, hstray⟩, hinside, hchildren⟩
    refine ⟨?_, ?_, hblock, hchildren⟩
    · intro d hd
      exact ⟨hstray d hd, hinside d (List.mem_append_right _ hd)⟩
    · intro d hd
      exact hinside d (List.mem_append_left _ (opens_iff.2 hd))

theorem lawfulAll_cons_iff {above : List Delimiter} {t : Token} {ts : List Token}
    (ht : Lawful above t ↔ t.Fits above)
    (hts : LawfulAll above ts ↔
      (∀ d ∈ above, ∀ u, Occurs u ts → ¬ u.IsStray d) ∧ Recovered ts) :
    LawfulAll above (t :: ts) ↔
      (∀ d ∈ above, ∀ u, Occurs u (t :: ts) → ¬ u.IsStray d) ∧ Recovered (t :: ts) := by
  rw [LawfulAll, ht, hts, trail_ne_nil_iff, recovered_cons]
  constructor
  · rintro ⟨⟨habove, hopens, hblock, hchildren⟩, hlast, hothers, hrecovered⟩
    refine ⟨?_, hopens, hblock, ?_, hchildren, hrecovered⟩
    · intro d hd u hu
      rcases occurs_cons.1 hu with rfl | hu | hu
      · exact (habove d hd).1
      · exact (habove d hd).2 u hu
      · exact hothers d hd u hu
    · intro d hd
      exact hlast ⟨d, hd⟩
  · rintro ⟨habove, hopens, hblock, hlast, hchildren, hrecovered⟩
    refine ⟨⟨?_, hopens, hblock, hchildren⟩, ?_, ?_, hrecovered⟩
    · intro d hd
      refine ⟨habove d hd t (occurs_cons.2 (Or.inl rfl)), ?_⟩
      intro u hu
      exact habove d hd u (occurs_cons.2 (Or.inr (Or.inl hu)))
    · rintro ⟨d, hd⟩
      exact hlast d hd
    · intro d hd u hu
      exact habove d hd u (occurs_cons.2 (Or.inr (Or.inr hu)))

/-- The recursion finds out whether the laws hold, also of stray brackets with respect to what is
open above. -/
theorem lawfulAll_iff (above : List Delimiter) : (ts : List Token) →
    (LawfulAll above ts ↔ (∀ d ∈ above, ∀ u, Occurs u ts → ¬ u.IsStray d) ∧ Recovered ts)
  | [] => by
    simp only [LawfulAll, true_iff]
    exact ⟨fun _ _ _ hu => absurd hu occurs_nil, recovered_nil⟩
  | leaf k s l :: ts => by
    have ht : Lawful above (leaf k s l) ↔ (leaf k s l).Fits above := by
      simp only [Lawful, fits_leaf]
    exact lawfulAll_cons_iff ht (lawfulAll_iff above ts)
  | group k s l children :: ts => by
    have hchildren := lawfulAll_iff (k.opened?.toList ++ above) children
    have ht : Lawful above (group k s l children) ↔ (group k s l children).Fits above := by
      rw [fits_group_iff, Lawful, hchildren]
    exact lawfulAll_cons_iff ht (lawfulAll_iff above ts)

theorem lawfulAll_nil_iff {ts : List Token} : LawfulAll [] ts ↔ Recovered ts := by
  rw [lawfulAll_iff]
  constructor
  · intro h
    exact h.2
  · intro h
    exact ⟨nofun, h⟩

end Token

end TokenTree
