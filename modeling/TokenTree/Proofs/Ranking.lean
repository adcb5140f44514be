import Mathlib.Order.Bounds.Defs
import TokenTree.Pattern.Set
import TokenTree.Proofs.Faults

/-!
# Which patterns make a set, and in which order

Definitions make a set of patterns if each has a name of its own and alternatives that select
something; else the first definition at fault is the one that is reported (`Pattern.Fault`). The
set has the patterns defined, in the one order in which each pair of them stands as priority, length
and place of definition say (`Pattern.Precedes`).
-/

namespace TokenTree

section

variable {α : Type} {l : List α} {a b : α}

theorem pair_sublist_or (ha : a ∈ l) (hb : b ∈ l) (hne : a ≠ b) :
    [a, b].Sublist l ∨ [b, a].Sublist l := by
  obtain ⟨before, after, rfl⟩ := List.append_of_mem ha
  rcases List.mem_append.1 hb with hb | hb
  · have hbefore : [b].Sublist before := List.singleton_sublist.2 hb
    exact Or.inr (hbefore.append (List.singleton_sublist.2 List.mem_cons_self))
  · rcases List.mem_cons.1 hb with rfl | hb
    · exact absurd rfl hne
    · have hafter : [a, b].Sublist (a :: after) := (List.singleton_sublist.2 hb).cons_cons a
      exact Or.inl (hafter.trans (List.sublist_append_right _ _))

/-- In a list without duplicates only one of two members stands before the other. -/
theorem not_pair_sublist_swap (h : l.Nodup) (hab : [a, b].Sublist l) : ¬ [b, a].Sublist l := by
  induction l with
  | nil => cases hab
  | cons c l ih =>
    obtain ⟨hc, hl⟩ := List.nodup_cons.1 h
    have head {x y : α} (hxy : [x, y].Sublist (c :: l)) : [x, y].Sublist l ∨ x = c ∧ y ∈ l := by
      cases hxy with
      | cons _ h => exact Or.inl h
      | cons_cons _ h => exact Or.inr ⟨rfl, List.singleton_sublist.1 h⟩
    have second {x y : α} (hxy : [x, y].Sublist l) : y ∈ l :=
      hxy.subset (List.mem_cons_of_mem _ List.mem_cons_self)
    intro hba
    rcases head hab with hab | ⟨hac, hb⟩
    · rcases head hba with hba | ⟨hbc, -⟩
      · exact ih hl hab hba
      · exact hc (hbc ▸ second hab)
    · rcases head hba with hba | ⟨hbc, -⟩
      · exact hc (hac ▸ second hba)
      · exact hc (hbc ▸ hb)

end

namespace Pattern

variable {earlier definitions : List Pattern} {p a b c : Pattern} {e : PatternError}

/-! ## What is at fault -/

/-- The pattern has a name, and alternatives none of which is empty. -/
def Sound (p : Pattern) : Prop :=
  p.name ≠ "" ∧ p.alternatives ≠ [] ∧ ∀ s ∈ p.alternatives, s ≠ []

/-- What is wrong with a pattern that is defined after the earlier ones. Of several things the first
one counts: that it has no name, no alternative, an empty alternative, or the name of another. -/
inductive Fault (earlier : List Pattern) (p : Pattern) : PatternError → Prop
  | emptyName (hname : p.name = "") : Fault earlier p .emptyName
  | noAlternatives (hname : p.name ≠ "") (hnone : p.alternatives = []) :
    Fault earlier p (.noAlternatives p.name)
  | emptyAlternative {index : Nat} (hname : p.name ≠ "")
    (hempty : p.alternatives[index]? = some [])
    (hfirst : ∀ i < index, p.alternatives[i]? ≠ some []) :
    Fault earlier p (.emptyAlternative p.name index)
  | duplicateName (hsound : p.Sound) (hname : p.name ∈ earlier.map name) :
    Fault earlier p (.duplicateName p.name)

/-- The search for an alternative without selectors finds the first one. -/
theorem findIdx?_isEmpty_eq_some_iff {alternatives : List (List Selector)} {index : Nat} :
    alternatives.findIdx? (·.isEmpty) = some index ↔
      alternatives[index]? = some [] ∧ ∀ i < index, alternatives[i]? ≠ some [] := by
  rw [List.findIdx?_eq_some_iff_getElem]
  constructor
  · rintro ⟨hlt, hempty, hfirst⟩
    refine ⟨by rw [List.getElem?_eq_getElem hlt, List.isEmpty_iff.1 hempty], fun i hi h => ?_⟩
    obtain ⟨_, hi'⟩ := List.getElem?_eq_some_iff.1 h
    exact hfirst i hi (List.isEmpty_iff.2 hi')
  · rintro ⟨hempty, hfirst⟩
    obtain ⟨hlt, hempty⟩ := List.getElem?_eq_some_iff.1 hempty
    refine ⟨hlt, List.isEmpty_iff.2 hempty, fun i hi h => ?_⟩
    exact hfirst i hi (List.getElem?_eq_some_iff.2 ⟨by omega, List.isEmpty_iff.1 h⟩)

theorem check_eq_ok (h : p.Sound) : p.check = .ok () := by
  obtain ⟨hname, hsome, hall⟩ := h
  have hnone : p.alternatives.findIdx? (·.isEmpty) = none := by
    rw [List.findIdx?_eq_none_iff]
    intro s hs
    simpa using hall s hs
  simp [check, hname, hsome, hnone]

/-- A pattern that no fault is found in has none, whatever was defined before it. -/
theorem not_fault_iff :
    (∀ e, ¬ p.Fault earlier e) ↔ p.Sound ∧ p.name ∉ earlier.map name := by
  constructor
  · intro h
    have hname : p.name ≠ "" := fun hname => h _ (.emptyName hname)
    have hsome : p.alternatives ≠ [] := fun hnone => h _ (.noAlternatives hname hnone)
    have hall : ∀ s ∈ p.alternatives, s ≠ [] := by
      cases hfind : p.alternatives.findIdx? (·.isEmpty) with
      | none => simpa using List.findIdx?_eq_none_iff.1 hfind
      | some index =>
        obtain ⟨hempty, hfirst⟩ := findIdx?_isEmpty_eq_some_iff.1 hfind
        exact absurd (.emptyAlternative hname hempty hfirst) (h _)
    have hsound : p.Sound := ⟨hname, hsome, hall⟩
    exact ⟨hsound, fun hdup => h _ (.duplicateName hsound hdup)⟩
  · rintro ⟨⟨hname, hsome, hall⟩, hdup⟩ e he
    cases he with
    | emptyName h => exact hname h
    | noAlternatives _ h => exact hsome h
    | emptyAlternative _ h _ => exact hall [] (List.mem_of_getElem? h) rfl
    | duplicateName _ h => exact hdup h

theorem any_name_eq_true_iff :
    earlier.reverse.any (·.name == p.name) = true ↔ p.name ∈ earlier.map name := by
  rw [List.any_reverse, List.any_eq_true, List.mem_map]
  simp only [beq_iff_eq]

/-- The check of all definitions stops at the first fault. -/
theorem checks_checkAll : Checks Fault fun seen => checkAll seen.reverse where
  nil _ := rfl
  fault {seen p e} h items := by
    cases h with
    | emptyName hname => simp [checkAll, check, hname]
    | noAlternatives hname hnone => simp [checkAll, check, hname, hnone]
    | @emptyAlternative index hname hempty hfirst =>
      have hfind := findIdx?_isEmpty_eq_some_iff.2 ⟨hempty, hfirst⟩
      have hsome : p.alternatives ≠ [] := List.ne_nil_of_mem (List.mem_of_getElem? hempty)
      simp [checkAll, check, hname, hsome, hfind]
    | duplicateName hsound hname =>
      simp only [checkAll, check_eq_ok hsound, if_pos (any_name_eq_true_iff.2 hname)]
  sound {seen p} h items := by
    obtain ⟨hsound, hname⟩ := not_fault_iff.1 h
    simp only [checkAll, check_eq_ok hsound, if_neg (mt any_name_eq_true_iff.1 hname),
      List.reverse_append, List.reverse_singleton, List.singleton_append]

/-- Definitions are accepted if each is sound and no two have the same name. -/
theorem checkAll_eq_ok_iff :
    checkAll [] definitions = .ok () ↔
      (∀ p ∈ definitions, p.Sound) ∧ (definitions.map name).Nodup :=
  checks_checkAll.eq_ok_iff.trans (faultless_iff_of_key fun _ _ => not_fault_iff)

/-! ## The order -/

/-- No alternative is longer than `longest` says, and one of them is as long. -/
theorem isGreatest_longest (h : p.alternatives ≠ []) :
    IsGreatest {n | ∃ s ∈ p.alternatives, s.length = n} p.longest := by
  have fold (l : List (List Selector)) (n : Nat) :
      let m := l.foldl (fun n s => max n s.length) n
      n ≤ m ∧ (∀ s ∈ l, s.length ≤ m) ∧ (m = n ∨ ∃ s ∈ l, s.length = m) := by
    induction l generalizing n with
    | nil => exact ⟨Nat.le_refl n, List.forall_mem_nil _, Or.inl rfl⟩
    | cons s l ih =>
      obtain ⟨hle, hall, hmax⟩ := ih (max n s.length)
      refine ⟨Nat.le_trans (Nat.le_max_left ..) hle,
        List.forall_mem_cons.2 ⟨Nat.le_trans (Nat.le_max_right ..) hle, hall⟩, ?_⟩
      rcases hmax with hmax | ⟨t, ht, hlength⟩
      · rcases Nat.le_total s.length n with hs | hs
        · exact Or.inl (hmax.trans (Nat.max_eq_left hs))
        · exact Or.inr ⟨s, List.mem_cons_self, (hmax.trans (Nat.max_eq_right hs)).symm⟩
      · exact Or.inr ⟨t, List.mem_cons_of_mem _ ht, hlength⟩
  obtain ⟨-, hall, hmax⟩ := fold p.alternatives 0
  refine ⟨?_, fun n hn => ?_⟩
  · rcases hmax with hzero | hmax
    · obtain ⟨s, hs⟩ := List.exists_mem_of_ne_nil _ h
      have hle : s.length ≤ p.longest := hall s hs
      exact ⟨s, hs, by rw [longest] at hle ⊢; omega⟩
    · exact hmax
  · obtain ⟨s, hs, rfl⟩ := hn
    exact hall s hs

/-- The first pattern stands before the second one: it has the higher priority; or the same, and the
longer alternative; or also one of the same length, and is defined before it. -/
def Precedes (definitions : List Pattern) (a b : Pattern) : Prop :=
  b.priority < a.priority ∨ a.priority = b.priority ∧
    (b.longest < a.longest ∨ a.longest = b.longest ∧ [a, b].Sublist definitions)

theorem triedBefore_iff :
    triedBefore a b = true ↔ b.priority < a.priority ∨
      a.priority = b.priority ∧ b.longest ≤ a.longest := by
  simp [triedBefore]

theorem triedBefore_trans (a b c : Pattern) (hab : triedBefore a b = true)
    (hbc : triedBefore b c = true) : triedBefore a c = true := by
  rw [triedBefore_iff] at hab hbc ⊢
  omega

theorem triedBefore_total (a b : Pattern) : (triedBefore a b || triedBefore b a) = true := by
  rw [Bool.or_eq_true, triedBefore_iff, triedBefore_iff]
  omega

theorem inOrder_perm (definitions : List Pattern) : (inOrder definitions).Perm definitions :=
  List.mergeSort_perm definitions triedBefore

/-- Sorting keeps patterns that are not told apart in the order of their definitions. -/
theorem inOrder_precedes (h : definitions.Nodup) :
    (inOrder definitions).Pairwise (Precedes definitions) := by
  have hperm := inOrder_perm definitions
  have htried := List.pairwise_mergeSort triedBefore_trans triedBefore_total definitions
  rw [List.pairwise_iff_forall_sublist] at htried ⊢
  intro a b hab
  have hswap := not_pair_sublist_swap (hperm.nodup_iff.2 h) hab
  rcases triedBefore_iff.1 (htried hab) with hpriority | ⟨hpriority, hlongest⟩
  · exact Or.inl hpriority
  · refine Or.inr ⟨hpriority, (Nat.lt_or_eq_of_le hlongest).imp_right fun hlongest => ?_⟩
    refine ⟨hlongest.symm, ?_⟩
    have hne : a ≠ b := by
      rintro rfl
      exact hswap hab
    have ha : a ∈ definitions := hperm.subset (hab.subset List.mem_cons_self)
    have hb : b ∈ definitions :=
      hperm.subset (hab.subset (List.mem_cons_of_mem _ List.mem_cons_self))
    refine (pair_sublist_or ha hb hne).resolve_right fun hba => hswap ?_
    have htie : triedBefore b a = true :=
      triedBefore_iff.2 (Or.inr ⟨hpriority.symm, Nat.le_of_eq hlongest.symm⟩)
    exact List.pair_sublist_mergeSort triedBefore_trans triedBefore_total htie hba

theorem Precedes.asymm (h : definitions.Nodup) (hab : Precedes definitions a b) :
    ¬ Precedes definitions b a := by
  rcases hab with hab | ⟨hpriority, hab | ⟨hlongest, hab⟩⟩
  · rintro (hba | ⟨hba, -⟩)
    all_goals omega
  · rintro (hba | ⟨-, hba | ⟨hba, -⟩⟩)
    all_goals omega
  · rintro (hba | ⟨-, hba | ⟨-, hba⟩⟩)
    · omega
    · omega
    · exact not_pair_sublist_swap h hab hba

/-- The order is the only one in which each pair of patterns stands as it should. -/
theorem eq_inOrder {patterns : List Pattern} (h : definitions.Nodup)
    (hperm : patterns.Perm definitions) (hpairs : patterns.Pairwise (Precedes definitions)) :
    patterns = inOrder definitions :=
  List.Perm.eq_of_pairwise (fun _ _ _ _ hab hba => absurd hba (hab.asymm h)) hpairs
    (inOrder_precedes h) (hperm.trans (inOrder_perm definitions).symm)

end Pattern

namespace PatternSet

variable {definitions : List Pattern} {set : PatternSet} {e : PatternError}

/-! ## Sets of patterns -/

theorem ofList_eq_error_iff :
    ofList definitions = .error e ↔ Pattern.checkAll [] definitions = .error e := by
  unfold ofList
  split
  · next h => exact ⟨nofun, fun he => nomatch h.symm.trans he⟩
  · next h => rw [h, Except.error.injEq, Except.error.injEq]

theorem ofList_eq_ok_iff :
    ofList definitions = .ok set ↔
      Pattern.checkAll [] definitions = .ok () ∧ set.patterns = Pattern.inOrder definitions := by
  unfold ofList
  split
  · next h =>
    constructor
    · rintro ⟨⟩
      exact ⟨h, rfl⟩
    · rintro ⟨-, hset⟩
      cases set
      cases hset
      rfl
  · next h => exact ⟨nofun, fun hok => nomatch h.symm.trans hok.1⟩

/-- Definitions make a set if each has a name, an alternative and no empty alternative, and no two
have the same name. The set is the only arrangement of the definitions in which of any two patterns
the one with the higher priority comes first, then the one whose longest alternative has more
selectors, then the one that is defined first. Definitions that make no set are refused for the
first of them that is at fault. -/
theorem ofList_ranks (definitions : List Pattern) :
    ((∃ set, ofList definitions = .ok set) ↔
      (∀ p ∈ definitions, p.name ≠ "" ∧ p.alternatives ≠ [] ∧ ∀ s ∈ p.alternatives, s ≠ []) ∧
        (definitions.map Pattern.name).Nodup) ∧
    (∀ set, ofList definitions = .ok set →
      set.patterns.Perm definitions ∧ set.patterns.Pairwise (Pattern.Precedes definitions) ∧
      (∀ patterns : List Pattern, patterns.Perm definitions →
        patterns.Pairwise (Pattern.Precedes definitions) → patterns = set.patterns) ∧
      ∀ p ∈ set.patterns, IsGreatest {n | ∃ s ∈ p.alternatives, s.length = n} p.longest) ∧
    ∀ e, ofList definitions = .error e ↔ FirstFault Pattern.Fault definitions e := by
  refine ⟨⟨fun ⟨set, hset⟩ => ?_, fun h => ?_⟩, fun set hset => ?_, fun e => ?_⟩
  · exact Pattern.checkAll_eq_ok_iff.1 (ofList_eq_ok_iff.1 hset).1
  · have hok := Pattern.checkAll_eq_ok_iff.2 h
    exact ⟨⟨_, definitions, hok, rfl⟩, ofList_eq_ok_iff.2 ⟨hok, rfl⟩⟩
  · obtain ⟨hok, hpatterns⟩ := ofList_eq_ok_iff.1 hset
    obtain ⟨hsound, hnames⟩ := Pattern.checkAll_eq_ok_iff.1 hok
    have hnodup : definitions.Nodup := .of_map Pattern.name hnames
    have hperm := Pattern.inOrder_perm definitions
    rw [hpatterns]
    refine ⟨hperm, Pattern.inOrder_precedes hnodup, fun patterns => Pattern.eq_inOrder hnodup, ?_⟩
    exact fun p hp => Pattern.isGreatest_longest (hsound p (hperm.subset hp)).2.1
  · exact ofList_eq_error_iff.trans Pattern.checks_checkAll.eq_error_iff

end PatternSet

end TokenTree
