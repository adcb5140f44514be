import TokenTree.Proofs.Scan
import TokenTree.Nesting

/-!
# Trees by their texts

The same input gives lexemes of different buffers when it is delivered in different chunks. To
compare two trees without regard to that, each lexeme is replaced by its text in a buffer of its own
(`detach`): tokens are the same exactly if they are then equal (`Token.same_iff`). A nest does the
same with pieces and open blocks that are equal so (`Nest.push_congr`, `Nest.finish_congr`).
-/

namespace TokenTree

/-- The lexeme with its text in a buffer of its own. -/
def Lexeme.detach (l : Lexeme) : Lexeme := .copied l.text

@[simp] theorem Lexeme.text_copied (t : Text) : (copied t).text = t := text_whole ⟨none, t⟩

@[simp] theorem Lexeme.text_detach (l : Lexeme) : l.detach.text = l.text := text_copied l.text

theorem Lexeme.detach_inj {a b : Lexeme} : a.detach = b.detach ↔ a.text = b.text := by
  constructor
  · intro h
    rw [← text_detach a, h, text_detach]
  · intro h
    rw [detach, h, detach]

namespace Token

mutual

/-- The token with all its lexemes detached. -/
def detach : Token → Token
  | leaf k s t => leaf k s t.detach
  | group k s t ts => group k s t.detach (detachAll ts)

/-- The tokens with all their lexemes detached. -/
def detachAll : List Token → List Token
  | [] => []
  | t :: ts => detach t :: detachAll ts

end

theorem detachAll_eq (ts : List Token) : detachAll ts = ts.map detach := by
  induction ts with
  | nil => rfl
  | cons t ts ih => rw [detachAll, ih, List.map_cons]

@[simp] theorem span_detach (t : Token) : t.detach.span = t.span := by cases t <;> rfl

@[simp] theorem text_detach (t : Token) : t.detach.text = t.text := by
  cases t <;> exact Lexeme.text_detach _

mutual

/-- Tokens are the same exactly if they have the same kinds, spans and texts throughout. -/
theorem same_iff : (a b : Token) → same a b = true ↔ a.detach = b.detach
  | leaf k s t, leaf k' s' t' => by
    simp [same, detach, Lexeme.sameText_iff, Lexeme.detach_inj, and_assoc]
  | group k s t ts, group k' s' t' ts' => by
    simp [same, detach, Lexeme.sameText_iff, Lexeme.detach_inj, and_assoc, sameAll_iff' ts ts']
  | leaf .., group .. => by simp [same, detach]
  | group .., leaf .. => by simp [same, detach]

theorem sameAll_iff' : (as bs : List Token) → sameAll as bs = true ↔ detachAll as = detachAll bs
  | [], [] => by simp [sameAll, detachAll]
  | a :: as, b :: bs => by simp [sameAll, detachAll, same_iff a b, sameAll_iff' as bs]
  | [], _ :: _ => by simp [sameAll, detachAll]
  | _ :: _, [] => by simp [sameAll, detachAll]

end

theorem sameAll_iff {as bs : List Token} :
    sameAll as bs = true ↔ as.map detach = bs.map detach := by
  rw [sameAll_iff', detachAll_eq, detachAll_eq]

mutual

@[simp] theorem detach_detach : (t : Token) → t.detach.detach = t.detach
  | leaf .. => by simp [detach, Lexeme.detach]
  | group _ _ _ ts => by simp [detach, Lexeme.detach, detachAll_detachAll ts]

theorem detachAll_detachAll : (ts : List Token) → detachAll (detachAll ts) = detachAll ts
  | [] => rfl
  | t :: ts => by rw [detachAll, detachAll, detach_detach t, detachAll_detachAll ts]

end

end Token

namespace Frame

/-- The frame with all its lexemes detached. -/
def detach (f : Frame) : Frame :=
  { f with opener := f.opener.detach, children := f.children.map Token.detach }

theorem texts_detach (ts : List Token) :
    ((ts.map Token.detach).reverse.map Token.lexeme).flatMap Lexeme.text =
      (ts.reverse.map Token.lexeme).flatMap Lexeme.text := by
  rw [← List.map_reverse, List.map_map, List.flatMap_map, List.flatMap_map]
  exact congrArg (ts.reverse.flatMap ·) (funext Token.text_detach)

theorem children_detach (ts : List Token) :
    Token.detachAll (ts.map Token.detach).reverse = Token.detachAll ts.reverse := by
  rw [Token.detachAll_eq, Token.detachAll_eq, ← List.map_reverse, List.map_map]
  exact congrArg (ts.reverse.map ·) (funext Token.detach_detach)

theorem close_detach (f : Frame) (closer : Lexeme) (stop : Nat) :
    (f.detach.close closer.detach stop).detach = (f.close closer stop).detach := by
  simp only [close, detach, Token.detach, Lexeme.detach, Lexeme.text_join, List.cons_append,
    List.flatMap_cons, List.flatMap_append, List.flatMap_nil, texts_detach, children_detach,
    Lexeme.text_copied]

theorem giveUp_detach (f : Frame) : f.detach.giveUp.detach = f.giveUp.detach := by
  obtain ⟨delimiter, start, opener, children⟩ := f
  have htexts := texts_detach children
  have hchildren := children_detach children
  -- the last child tells where the region stops
  cases children with
  | nil => simp [giveUp, detach, Token.detach, Lexeme.detach, Token.detachAll]
  | cons last rest =>
    rw [List.map_cons] at htexts hchildren
    simp only [giveUp, detach, Token.detach, Lexeme.detach, Lexeme.text_join, List.map_cons,
      List.flatMap_cons, htexts, hchildren, Lexeme.text_copied, Token.span_detach]

variable {f f' : Frame}

theorem close_congr {c c' : Lexeme} (hf : f.detach = f'.detach) (hc : c.detach = c'.detach)
    (stop : Nat) : (f.close c stop).detach = (f'.close c' stop).detach := by
  rw [← close_detach f, ← close_detach f', hf, hc]

theorem giveUp_congr (hf : f.detach = f'.detach) : f.giveUp.detach = f'.giveUp.detach := by
  rw [← giveUp_detach f, ← giveUp_detach f', hf]

theorem detach_addIfSome (f : Frame) (t? : Option Token) :
    (f.addIfSome t?).detach = f.detach.addIfSome (t?.map Token.detach) := by
  cases t? <;> rfl

theorem delimiter_congr (hf : f.detach = f'.detach) : f.delimiter = f'.delimiter :=
  (Frame.mk.inj hf).1

end Frame

namespace Nest

/-- The nest with all its lexemes detached. -/
def detach (n : Nest) : Nest := ⟨n.frames.map Frame.detach, n.tokens.map Token.detach⟩

variable {n n' : Nest}

theorem detach_inj : n.detach = n'.detach ↔ n.frames.map Frame.detach = n'.frames.map Frame.detach ∧
    n.tokens.map Token.detach = n'.tokens.map Token.detach := by
  simp [detach]

theorem detach_add (n : Nest) (t : Token) : (n.add t).detach = n.detach.add t.detach := by
  obtain ⟨frames, tokens⟩ := n
  cases frames with
  | nil => rfl
  | cons f fs => rfl

theorem add_congr {t t' : Token} (hn : n.detach = n'.detach) (ht : t.detach = t'.detach) :
    (n.add t).detach = (n'.add t').detach := by rw [detach_add, detach_add, hn, ht]

theorem unwind_congr {stop : Frame → Bool} {ts ts' : List Token} {fs fs' : List Frame}
    {inner inner' : Option Token} (hstop : ∀ f f', f.detach = f'.detach → stop f = stop f')
    (ht : ts.map Token.detach = ts'.map Token.detach)
    (hf : fs.map Frame.detach = fs'.map Frame.detach)
    (hi : inner.map Token.detach = inner'.map Token.detach) :
    (unwind stop ts fs inner).detach = (unwind stop ts' fs' inner').detach := by
  induction fs generalizing fs' inner inner' with
  | nil =>
    obtain rfl : fs' = [] := List.map_eq_nil_iff.1 hf.symm
    have htoList (o : Option Token) : o.toList.map Token.detach = (o.map Token.detach).toList := by
      cases o <;> rfl
    simp only [unwind, detach_inj, List.map_append, htoList, hi, ht, and_self]
  | cons f fs ih =>
    cases fs' with
    | nil => cases hf
    | cons f' fs' =>
      obtain ⟨hhead, htail⟩ := List.cons.inj hf
      have hadd : (f.addIfSome inner).detach = (f'.addIfSome inner').detach := by
        rw [Frame.detach_addIfSome, Frame.detach_addIfSome, hhead, hi]
      simp only [unwind, hstop _ _ hadd]
      split
      · rw [detach_inj]
        exact ⟨by simp only [List.map_cons, hadd, htail], ht⟩
      · exact ih htail (congrArg some (Frame.giveUp_congr hadd))

theorem any_congr (hn : n.detach = n'.detach) (d : Delimiter) :
    n.frames.any (·.delimiter = d) = n'.frames.any (·.delimiter = d) := by
  have hany (n : Nest) :
      n.frames.any (·.delimiter = d) = n.detach.frames.any (·.delimiter = d) := by
    rw [detach, List.any_map]
    rfl
  rw [hany n, hany n', hn]

theorem close_congr {c c' : Lexeme} (hn : n.detach = n'.detach) (hc : c.detach = c'.detach)
    (d : Delimiter) (span : Span) : (n.close d span c).detach = (n'.close d span c').detach := by
  obtain ⟨hf, ht⟩ := detach_inj.1 hn
  unfold close
  rw [any_congr hn d]
  split
  · have hunwind : (unwind (·.delimiter = d) n.tokens n.frames none).detach =
        (unwind (·.delimiter = d) n'.tokens n'.frames none).detach :=
      unwind_congr (fun f f' h => by simp only [Frame.delimiter_congr h]) ht hf rfl
    generalize unwind (·.delimiter = d) n.tokens n.frames none = m at hunwind
    generalize unwind (·.delimiter = d) n'.tokens n'.frames none = m' at hunwind
    obtain ⟨fs, ts⟩ := m
    obtain ⟨fs', ts'⟩ := m'
    obtain ⟨hfs, hts⟩ := detach_inj.1 hunwind
    cases fs with
    | nil =>
      obtain rfl : fs' = [] := List.map_eq_nil_iff.1 hfs.symm
      exact hunwind
    | cons f fs =>
      cases fs' with
      | nil => cases hfs
      | cons f' fs' =>
        obtain ⟨hhead, htail⟩ := List.cons.inj hfs
        exact add_congr (detach_inj.2 ⟨htail, hts⟩) (Frame.close_congr hhead hc span.stop)
  · refine add_congr hn ?_
    simp only [Token.detach, hc]

theorem push_congr {p p' : Piece} (hn : n.detach = n'.detach) (hp : p.detach = p'.detach) :
    (n.push p).detach = (n'.push p').detach := by
  obtain ⟨kind, span, lexeme⟩ := p
  obtain ⟨kind', span', lexeme'⟩ := p'
  have hkind : kind = kind' := congrArg Piece.kind hp
  have hspan : span = span' := congrArg Piece.span hp
  have hlexeme : lexeme.detach = lexeme'.detach := congrArg Piece.lexeme hp
  subst hkind
  subst hspan
  cases kind with
  | leaf k => exact add_congr hn (by simp only [Token.detach, hlexeme])
  | unterminated => exact add_congr hn (by simp only [Token.detach, hlexeme])
  | opener d =>
    obtain ⟨hf, ht⟩ := detach_inj.1 hn
    refine detach_inj.2 ⟨?_, ht⟩
    simp only [push, List.map_cons, hf, Frame.detach, hlexeme]
  | closer d => exact close_congr hn hlexeme d span

/-- Pieces that are equal but for their buffers make nests that are equal but for their buffers. -/
theorem foldl_push_congr {ps ps' : List Piece} (hn : n.detach = n'.detach)
    (hp : ps.map Piece.detach = ps'.map Piece.detach) :
    (ps.foldl push n).detach = (ps'.foldl push n').detach := by
  induction ps generalizing n n' ps' with
  | nil =>
    obtain rfl : ps' = [] := List.map_eq_nil_iff.1 hp.symm
    exact hn
  | cons p ps ih =>
    cases ps' with
    | nil => cases hp
    | cons p' ps' =>
      obtain ⟨hhead, htail⟩ := List.cons.inj hp
      rw [List.foldl_cons, List.foldl_cons]
      exact ih (push_congr hn hhead) htail

theorem finish_congr (hn : n.detach = n'.detach) : n.finish.detach = n'.finish.detach := by
  obtain ⟨hf, ht⟩ := detach_inj.1 hn
  exact unwind_congr (fun _ _ _ => rfl) ht hf rfl

end Nest

end TokenTree
