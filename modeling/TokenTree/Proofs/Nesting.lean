import TokenTree.Nesting

/-!
# What a piece does to a nest

The tokens outside of all blocks are only ever added to: a nest treats a piece in the same way
whatever tokens were complete before (`Nest.foldl_push_onto`). So the tokens that are complete can
be handed over at any time.

All that unwinding does is to give up one block after the other, from the innermost on
(`Nest.GivesUp`). A closing bracket gives up the blocks inside the innermost one of its kind and
closes that (`Nest.close_of_givesUp`), or is added as it is (`Nest.close_of_absent`).
-/

namespace TokenTree

namespace Nest

/-- The nest with older tokens before its own. -/
def onto (n : Nest) (older : List Token) : Nest := { n with tokens := n.tokens ++ older }

theorem add_onto (n : Nest) (older : List Token) (t : Token) :
    (n.onto older).add t = (n.add t).onto older := by
  obtain ⟨frames, tokens⟩ := n
  cases frames <;> rfl

theorem unwind_onto (stop : Frame → Bool) (tokens older : List Token) (fs : List Frame)
    (inner : Option Token) :
    unwind stop (tokens ++ older) fs inner = (unwind stop tokens fs inner).onto older := by
  induction fs generalizing inner with
  | nil => simp only [unwind, onto, List.append_assoc]
  | cons f fs ih =>
    simp only [unwind]
    split
    · rfl
    · exact ih _

theorem close_onto (n : Nest) (older : List Token) (d : Delimiter) (span : Span)
    (closer : Lexeme) :
    (n.onto older).close d span closer = (n.close d span closer).onto older := by
  have hframes : (n.onto older).frames = n.frames := rfl
  have htokens : (n.onto older).tokens = n.tokens ++ older := rfl
  unfold close
  rw [hframes]
  split
  · rw [htokens, unwind_onto]
    generalize unwind (·.delimiter = d) n.tokens n.frames none = m
    obtain ⟨fs, ts⟩ := m
    cases fs with
    | nil => rfl
    | cons f fs => exact add_onto ⟨fs, ts⟩ older _
  · exact add_onto n older _

theorem push_onto (n : Nest) (older : List Token) (p : Piece) :
    (n.onto older).push p = (n.push p).onto older := by
  unfold push
  cases p.kind with
  | leaf kind => exact add_onto n older _
  | unterminated => exact add_onto n older _
  | opener d => rfl
  | closer d => exact close_onto n older d _ _

/-- Complete tokens have no part in what becomes of the pieces to come. -/
theorem foldl_push_onto (n : Nest) (older : List Token) (ps : List Piece) :
    ps.foldl push (n.onto older) = (ps.foldl push n).onto older := by
  induction ps generalizing n with
  | nil => rfl
  | cons p ps ih => rw [List.foldl_cons, push_onto, ih, List.foldl_cons]

theorem finish_onto (n : Nest) (older : List Token) :
    (n.onto older).finish = n.finish.onto older :=
  unwind_onto _ n.tokens older n.frames none

/-- Giving up all open blocks only adds to the complete tokens. -/
theorem exists_tokens_finish (n : Nest) : ∃ newer, n.finish.tokens = newer ++ n.tokens :=
  ⟨_, congrArg tokens (finish_onto ⟨n.frames, []⟩ n.tokens)⟩

/-! ## Open blocks -/

/-- The kinds of the open blocks, the innermost first. -/
def delimiters (n : Nest) : List Delimiter := n.frames.map Frame.delimiter

/-- The nest with more tokens in its innermost open block. -/
def addAll (n : Nest) (ts : List Token) : Nest := ts.foldl add n

theorem delimiters_add (n : Nest) (t : Token) : (n.add t).delimiters = n.delimiters := by
  obtain ⟨frames, tokens⟩ := n
  cases frames <;> rfl

theorem length_add (n : Nest) (t : Token) : (n.add t).frames.length = n.frames.length := by
  obtain ⟨frames, tokens⟩ := n
  cases frames <;> rfl

theorem addAll_outside (ts tokens : List Token) :
    (⟨[], tokens⟩ : Nest).addAll ts = ⟨[], ts.reverse ++ tokens⟩ := by
  induction ts generalizing tokens with
  | nil => rfl
  | cons t ts ih =>
    have hadd : (⟨[], tokens⟩ : Nest).add t = ⟨[], t :: tokens⟩ := rfl
    rw [addAll, List.foldl_cons, hadd, ← addAll, ih, List.reverse_cons, List.append_assoc]
    rfl

theorem addAll_inside (ts : List Token) (f : Frame) (fs : List Frame) (tokens : List Token) :
    (⟨f :: fs, tokens⟩ : Nest).addAll ts =
      ⟨{ f with children := ts.reverse ++ f.children } :: fs, tokens⟩ := by
  induction ts generalizing f with
  | nil => rfl
  | cons t ts ih =>
    have hadd : (⟨f :: fs, tokens⟩ : Nest).add t = ⟨f.add t :: fs, tokens⟩ := rfl
    rw [addAll, List.foldl_cons, hadd, ← addAll, ih, List.reverse_cons, List.append_assoc]
    rfl

/-- Giving up open blocks of these kinds, from the innermost on, makes one nest the other. -/
inductive GivesUp : List Delimiter → Nest → Nest → Prop
  | refl (n : Nest) : GivesUp [] n n
  | step {f : Frame} {fs : List Frame} {tokens : List Token} {ds : List Delimiter} {n : Nest}
    (h : GivesUp ds (add ⟨fs, tokens⟩ f.giveUp) n) : GivesUp (f.delimiter :: ds) ⟨f :: fs, tokens⟩ n

variable {n n' : Nest} {ds : List Delimiter}

theorem GivesUp.snoc {f : Frame} {fs : List Frame} {tokens : List Token}
    (h : GivesUp ds n ⟨f :: fs, tokens⟩) :
    GivesUp (ds ++ [f.delimiter]) n (add ⟨fs, tokens⟩ f.giveUp) := by
  generalize hm : (⟨f :: fs, tokens⟩ : Nest) = m at h
  induction h with
  | refl n =>
    subst hm
    exact .step (.refl _)
  | step _ ih => exact .step (ih hm)

theorem GivesUp.delimiters_eq (h : GivesUp ds n n') : n.delimiters = ds ++ n'.delimiters := by
  induction h with
  | refl n => rfl
  | step _ ih =>
    rw [delimiters_add] at ih
    rw [List.cons_append, ← ih]
    rfl

theorem unwind_some (stop : Frame → Bool) (tokens : List Token) (fs : List Frame) (t : Token) :
    unwind stop tokens fs (some t) =
      unwind stop (add ⟨fs, tokens⟩ t).tokens (add ⟨fs, tokens⟩ t).frames none := by
  cases fs <;> rfl

/-- Unwinding passes the blocks at which it does not stop. -/
theorem GivesUp.unwind_eq {stop : Frame → Bool} (h : GivesUp ds n n')
    (hstop : ∀ f, f.delimiter ∈ ds → stop f = false) :
    unwind stop n.tokens n.frames none = unwind stop n'.tokens n'.frames none := by
  induction h with
  | refl n => rfl
  | @step f fs tokens ds n _ ih =>
    have hf : stop (f.addIfSome none) = false := hstop f List.mem_cons_self
    have hpass : unwind stop tokens (f :: fs) none = unwind stop tokens fs (some f.giveUp) := by
      rw [unwind, if_neg (by rw [hf]; exact Bool.false_ne_true)]
      rfl
    have hrest (g : Frame) (hg : g.delimiter ∈ ds) : stop g = false :=
      hstop g (List.mem_cons_of_mem _ hg)
    rw [hpass, unwind_some]
    exact ih hrest

theorem GivesUp.finish_eq (h : GivesUp ds n n') : n.finish = n'.finish :=
  h.unwind_eq fun _ _ => rfl

/-- A closing bracket closes the innermost open block of its kind. -/
theorem close_of_givesUp {f : Frame} {fs : List Frame} {tokens : List Token}
    (h : GivesUp ds n ⟨f :: fs, tokens⟩) (hd : f.delimiter ∉ ds) (span : Span) (closer : Lexeme) :
    n.close f.delimiter span closer = add ⟨fs, tokens⟩ (f.close closer span.stop) := by
  have hany : n.frames.any (·.delimiter = f.delimiter) = true := by
    have hmem : f.delimiter ∈ n.delimiters := by
      rw [h.delimiters_eq]
      exact List.mem_append_right _ List.mem_cons_self
    obtain ⟨g, hg, hgd⟩ := List.mem_map.1 hmem
    exact List.any_eq_true.2 ⟨g, hg, by simpa using hgd⟩
  have hunwind : unwind (·.delimiter = f.delimiter) n.tokens n.frames none = ⟨f :: fs, tokens⟩ := by
    have hpass (g : Frame) (hg : g.delimiter ∈ ds) :
        decide (g.delimiter = f.delimiter) = false :=
      decide_eq_false fun he => hd (he ▸ hg)
    rw [h.unwind_eq hpass, unwind]
    exact if_pos (decide_eq_true rfl)
  rw [close, if_pos hany, hunwind]

/-- A closing bracket of a kind that is not open stands by itself. -/
theorem close_of_absent {d : Delimiter} (h : d ∉ n.delimiters) (span : Span) (closer : Lexeme) :
    n.close d span closer = n.add (.group (.error (.stray d)) span closer []) := by
  rw [close, if_neg]
  intro hany
  obtain ⟨g, hg, hgd⟩ := List.any_eq_true.1 hany
  have hgd : g.delimiter = d := by simpa using hgd
  exact h (List.mem_map.2 ⟨g, hg, hgd⟩)

/-- The innermost open block of a kind can be reached. -/
theorem exists_givesUp {d : Delimiter} (h : d ∈ n.delimiters) :
    ∃ ds f fs tokens, GivesUp ds n ⟨f :: fs, tokens⟩ ∧ f.delimiter = d ∧ d ∉ ds := by
  obtain ⟨frames, tokens⟩ := n
  induction hlen : frames.length generalizing frames tokens with
  | zero =>
    obtain rfl := List.eq_nil_of_length_eq_zero hlen
    cases h
  | succ k ih =>
    cases frames with
    | nil => cases h
    | cons f fs =>
      by_cases hd : f.delimiter = d
      · exact ⟨[], f, fs, tokens, .refl _, hd, nofun⟩
      · have hrest : d ∈ (add ⟨fs, tokens⟩ f.giveUp).delimiters := by
          rw [delimiters_add]
          rcases List.mem_cons.1 h with he | hmem
          · exact absurd he.symm hd
          · exact hmem
        have hk : (add ⟨fs, tokens⟩ f.giveUp).frames.length = k := by
          rw [length_add]
          exact Nat.succ.inj hlen
        obtain ⟨ds, g, gs, ts, hg, hgd, hds⟩ := ih _ _ hrest hk
        refine ⟨f.delimiter :: ds, g, gs, ts, .step hg, hgd, ?_⟩
        intro hmem
        rcases List.mem_cons.1 hmem with he | hmem
        · exact hd he.symm
        · exact hds hmem

/-- All open blocks can be given up. -/
theorem exists_givesUp_all (n : Nest) : ∃ ds tokens, GivesUp ds n ⟨[], tokens⟩ := by
  obtain ⟨frames, tokens⟩ := n
  induction hlen : frames.length generalizing frames tokens with
  | zero =>
    obtain rfl := List.eq_nil_of_length_eq_zero hlen
    exact ⟨[], tokens, .refl _⟩
  | succ k ih =>
    cases frames with
    | nil => cases hlen
    | cons f fs =>
      have hk : (add ⟨fs, tokens⟩ f.giveUp).frames.length = k := by
        rw [length_add]
        exact Nat.succ.inj hlen
      obtain ⟨ds, ts, hds⟩ := ih _ _ hk
      exact ⟨f.delimiter :: ds, ts, .step hds⟩

end Nest

end TokenTree
