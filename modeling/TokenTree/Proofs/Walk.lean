import TokenTree.Proofs.Recovery
import TokenTree.Token.Walk

/-!
# What walks meet

A walk meets every token of a forest once, a token before its children. `Token.preorderAll` is the
list of the tokens in this order: every walk is a fold over it (`Token.foldAllAt_eq`), and its
members are the tokens that stand in the forest at any depth (`Token.mem_preorderAll_iff`).
-/

namespace TokenTree

namespace Token

mutual

/-- The token, then the tokens inside it in the order of walks. -/
def preorder : Token → List Token
  | leaf k s t => [leaf k s t]
  | group k s t ts => group k s t ts :: preorderAll ts

/-- All tokens of a forest, at any depth, in the order of walks. -/
def preorderAll : List Token → List Token
  | [] => []
  | t :: ts => preorder t ++ preorderAll ts

end

@[simp] theorem preorderAll_nil : preorderAll [] = [] := by rw [preorderAll]

theorem preorder_eq (t : Token) : preorder t = t :: preorderAll t.children := by
  cases t with
  | leaf k s l => rw [preorder, children, preorderAll]
  | group k s l ts => rw [preorder, children]

@[simp] theorem preorderAll_cons (t : Token) (ts : List Token) :
    preorderAll (t :: ts) = t :: (preorderAll t.children ++ preorderAll ts) := by
  rw [preorderAll, preorder_eq, List.cons_append]

@[simp] theorem preorderAll_append (ts us : List Token) :
    preorderAll (ts ++ us) = preorderAll ts ++ preorderAll us := by
  induction ts with
  | nil => simp
  | cons t ts ih => simp [ih]

/-- The tokens that walks meet are those that stand in the forest at any depth. -/
theorem mem_preorderAll_iff {u : Token} : (ts : List Token) → (u ∈ preorderAll ts ↔ Occurs u ts)
  | [] => by simp [occurs_nil]
  | leaf k s l :: ts => by
    have ih := mem_preorderAll_iff (u := u) ts
    simp [occurs_cons, children, occurs_nil, ih]
  | group k s l inside :: ts => by
    have hinside := mem_preorderAll_iff (u := u) inside
    have ih := mem_preorderAll_iff (u := u) ts
    simp [occurs_cons, children, hinside, ih]

theorem occurs_append {u : Token} {ts us : List Token} :
    Occurs u (ts ++ us) ↔ Occurs u ts ∨ Occurs u us := by
  simp only [← mem_preorderAll_iff, preorderAll_append, List.mem_append]

theorem occurs_reverse {u : Token} {ts : List Token} : Occurs u ts.reverse ↔ Occurs u ts := by
  have hmono {ts us : List Token} (hsub : ∀ t ∈ ts, t ∈ us) (h : Occurs u ts) : Occurs u us := by
    cases h with
    | here h => exact .here (hsub u h)
    | inside hv h => exact .inside (hsub _ hv) h
  exact ⟨hmono fun _ => List.mem_reverse.1, hmono fun _ => List.mem_reverse.2⟩

/-- What stands inside a token of the forest stands in the forest. -/
theorem Occurs.trans {u t : Token} {ts : List Token} (h : Occurs t ts) (hu : Occurs u t.children) :
    Occurs u ts := by
  induction h with
  | here h => exact .inside h hu
  | inside hv _ ih => exact .inside hv ih

theorem Trails.occurs {t : Token} {ts : List Token} (h : Trails t ts) : Occurs t ts := by
  induction h with
  | last h _ => exact .here (List.mem_of_getLast? h)
  | deeper h _ _ ih => exact .inside (List.mem_of_getLast? h) ih

/-! ## Walks as folds -/

section

variable {β : Type} (f : β → Token → β)

mutual

theorem foldAt_eq (depth : Nat) (acc : β) :
    (t : Token) → foldAt (fun b _ t => f b t) depth acc t = (preorder t).foldl f acc
  | leaf k s l => by rw [foldAt, preorder, List.foldl_cons, List.foldl_nil]
  | group k s l ts => by rw [foldAt, preorder, List.foldl_cons, foldAllAt_eq]

/-- A walk that does not look at depths is a fold over the tokens that it meets. -/
theorem foldAllAt_eq (depth : Nat) (acc : β) :
    (ts : List Token) → foldAllAt (fun b _ t => f b t) depth acc ts = (preorderAll ts).foldl f acc
  | [] => by rw [foldAllAt, preorderAll, List.foldl_nil]
  | t :: ts => by rw [foldAllAt, preorderAll, List.foldl_append, foldAt_eq, foldAllAt_eq]

end

end

theorem foldl_keep (p : Token → Bool) (ts seen : List Token) :
    ts.foldl (fun seen t => if p t then t :: seen else seen) seen =
      (ts.filter p).reverse ++ seen := by
  induction ts generalizing seen with
  | nil => rfl
  | cons t ts ih =>
    rw [List.foldl_cons, ih]
    by_cases h : p t = true
    · rw [if_pos h, List.filter_cons_of_pos h, List.reverse_cons, List.append_assoc,
        List.singleton_append]
    · rw [if_neg h, List.filter_cons_of_neg h]

/-- The malformed regions of a forest are those among all its tokens. -/
theorem walkErrors_eq (ts : List Token) : walkErrors ts = (preorderAll ts).filter isError := by
  rw [walkErrors, foldTokens, foldAllAt_eq, foldl_keep, List.append_nil, List.reverse_reverse]

/-- The tokens without children are those among all tokens. -/
theorem flatten_eq (ts : List Token) :
    flatten ts = (preorderAll ts).filter fun t => t.children.isEmpty := by
  rw [flatten, foldTokens, foldAllAt_eq, foldl_keep, List.append_nil, List.reverse_reverse]

theorem walkErrors_eq_nil_iff {ts : List Token} :
    walkErrors ts = [] ↔ ∀ t, Occurs t ts → t.isError = false := by
  simp only [walkErrors_eq, List.filter_eq_nil_iff, mem_preorderAll_iff, Bool.not_eq_true]

end Token

end TokenTree
