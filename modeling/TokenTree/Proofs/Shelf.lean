import Mathlib.Data.List.Nodup
import TokenTree.Proofs.Joining

/-!
# Lexemes made of lexemes

Lexemes are made one after the other, each of a range of a buffer that is given, of all of it, of a
text, of a range of a lexeme made before, or of several lexemes made before. Copies get a buffer of
their own, with a label that no buffer has yet. Whatever is made, the labels tell the buffers apart,
and copies stay copies of views that do not touch (`Shelf.Sound`), so that lexemes are joined without
a copy exactly if they are contiguous (`Shelf.views_of_run`).
-/

namespace TokenTree

/-- How a lexeme is made. Buffers and lexemes are given by their numbers. -/
inductive Making where
  /-- As a view of the bytes of a buffer from `start` up to `stop`. -/
  | range (buffer start stop : Nat)
  /-- As a view of a whole buffer. -/
  | whole (buffer : Nat)
  /-- As a text in a buffer of its own. -/
  | copied (text : Text)
  /-- As the bytes of a lexeme from `start` up to `stop`. -/
  | slice (lexeme start stop : Nat)
  /-- As lexemes one after the other. -/
  | join (parts : List Nat)

/-- The buffers that there are, and the lexemes that have been made. -/
structure Shelf where
  buffers : List Buffer
  lexemes : List Lexeme

namespace Shelf

/-- A buffer for each text, and no lexemes. -/
def ofTexts (texts : List Text) : Shelf := ⟨texts.mapIdx fun i text => ⟨some i, text⟩, []⟩

/-- The label for a new buffer. -/
def fresh (s : Shelf) : Option Nat := some s.buffers.length

/-- The lexeme that is made, if there are the buffers and lexemes it is made of and it can be. -/
def make? (s : Shelf) : Making → Option Lexeme
  | .range i start stop => s.buffers[i]?.bind fun b => (Lexeme.ofRange b start stop).toOption
  | .whole i => s.buffers[i]?.map Lexeme.whole
  | .copied text => some (.whole ⟨s.fresh, text⟩)
  | .slice i start stop => s.lexemes[i]?.bind fun l => (l.slice start stop).toOption
  | .join parts => (parts.mapM (s.lexemes[·]?)).map (Lexeme.join s.fresh)

/-- One more lexeme, with its buffer if that is new. -/
def add (s : Shelf) (l : Lexeme) : Shelf :=
  ⟨if l.view.buffer ∈ s.buffers then s.buffers else s.buffers ++ [l.view.buffer], s.lexemes ++ [l]⟩

/-- What cannot be made leaves everything as it is. -/
def after (s : Shelf) (m : Making) : Shelf := ((s.make? m).map s.add).getD s

/-- The lexemes made one after the other, with buffers for the texts to begin with. -/
def run (texts : List Text) (makings : List Making) : Shelf := makings.foldl after (ofTexts texts)

variable {s : Shelf} {l : Lexeme} {m : Making} {parts : List Lexeme}

/-! ## What is kept -/

/-- Each buffer has the label that tells its place, all lexemes view buffers that are there, and
those that are copies are copies of views that do not touch. -/
structure Sound (s : Shelf) : Prop where
  label : ∀ i (h : i < s.buffers.length), s.buffers[i].label = some i
  viewed : ∀ l ∈ s.lexemes, l.view.buffer ∈ s.buffers
  apart : ∀ l ∈ s.lexemes, l.Apart

/-- The lexeme views a buffer that is there, or all of a new one. -/
def Placed (s : Shelf) (l : Lexeme) : Prop :=
  l.view.buffer ∈ s.buffers ∨ l.view = .whole ⟨s.fresh, l.text⟩

theorem sound_ofTexts (texts : List Text) : (ofTexts texts).Sound where
  label i h := by simp [ofTexts]
  viewed := nofun
  apart := nofun

theorem Sound.fresh_notMem (h : s.Sound) : s.fresh ∉ s.buffers.map Buffer.label := by
  intro hmem
  obtain ⟨b, hb, hlabel⟩ := List.mem_map.1 hmem
  obtain ⟨i, hi, rfl⟩ := List.mem_iff_getElem.1 hb
  rw [h.label i hi, fresh, Option.some_inj] at hlabel
  exact Nat.lt_irrefl _ (hlabel ▸ hi)

theorem Sound.nodup_labels (h : s.Sound) : (s.buffers.map Buffer.label).Nodup := by
  rw [List.nodup_iff_injective_getElem]
  intro i j hij
  simp only [List.getElem_map, h.label, Option.some_inj] at hij
  exact Fin.ext hij

theorem mem_buffers_add {b : Buffer} :
    b ∈ (s.add l).buffers ↔ b ∈ s.buffers ∨ b = l.view.buffer := by
  unfold Shelf.add
  split
  · next hmem =>
    refine (or_iff_left_of_imp ?_).symm
    rintro rfl
    exact hmem
  · rw [List.mem_append, List.mem_singleton]

theorem mem_lexemes_add {p : Lexeme} : p ∈ (s.add l).lexemes ↔ p ∈ s.lexemes ∨ p = l := by
  unfold Shelf.add
  rw [List.mem_append, List.mem_singleton]

theorem Sound.add (h : s.Sound) (hplaced : s.Placed l) (hapart : l.Apart) : (s.add l).Sound where
  label i hi := by
    unfold Shelf.add at hi ⊢
    split at hi
    · next hmem =>
      simp only [if_pos hmem]
      exact h.label i hi
    · next hnew =>
      simp only [if_neg hnew]
      rw [List.getElem_append]
      split
      · next hlt => exact h.label i hlt
      · next hge =>
        rw [List.length_append, List.length_singleton] at hi
        obtain rfl : i = s.buffers.length := by omega
        have hview := hplaced.resolve_left hnew
        simp only [Nat.sub_self, List.getElem_cons_zero, hview]
        rfl
  viewed p hp := by
    rcases mem_lexemes_add.1 hp with hp | rfl
    · exact mem_buffers_add.2 (Or.inl (h.viewed p hp))
    · exact mem_buffers_add.2 (Or.inr rfl)
  apart p hp := by
    rcases mem_lexemes_add.1 hp with hp | rfl
    · exact h.apart p hp
    · exact hapart

theorem Sound.join (h : s.Sound) (hparts : ∀ p ∈ parts, p ∈ s.lexemes) :
    s.Placed (.join s.fresh parts) ∧ (Lexeme.join s.fresh parts).Apart := by
  cases parts with
  | nil => exact ⟨Or.inr rfl, Lexeme.apart_ofView _⟩
  | cons first rest =>
    have hapart : ∀ p ∈ first :: rest, p.Apart := fun p hp => h.apart p (hparts p hp)
    have hfirst : first ∈ first :: rest := List.mem_cons_self
    by_cases hchain : (first :: rest).IsChain Lexeme.Touches
    · obtain ⟨hjoin, hbuffer, -⟩ :=
        Lexeme.join_of_isChain s.fresh (hapart first hfirst) hchain
      exact ⟨Or.inl (hbuffer ▸ h.viewed first (hparts first hfirst)), hjoin⟩
    · obtain ⟨hjoin, hview⟩ := Lexeme.join_of_not_isChain s.fresh hapart hchain
      exact ⟨Or.inr hview, hjoin⟩

theorem eq_ok_of_toOption {ε : Type} {r : Except ε Lexeme} (h : r.toOption = some l) :
    r = .ok l := by
  cases r <;> cases h
  rfl

theorem mem_of_mapM_getElem? {is : List Nat} (h : is.mapM (s.lexemes[·]?) = some parts) :
    ∀ p ∈ parts, p ∈ s.lexemes := by
  induction is generalizing parts with
  | nil =>
    cases h
    exact List.forall_mem_nil _
  | cons i is ih =>
    rw [List.mapM_cons] at h
    obtain ⟨p, hp, h⟩ := Option.bind_eq_some_iff.1 h
    obtain ⟨ps, hps, h⟩ := Option.bind_eq_some_iff.1 h
    cases h
    exact List.forall_mem_cons.2 ⟨List.mem_of_getElem? hp, ih hps⟩

/-- Whatever is made is a view of a buffer that is there, or of all of a new one. -/
theorem Sound.make (h : s.Sound) (hmake : s.make? m = some l) : s.Placed l ∧ l.Apart := by
  cases m with
  | range i start stop =>
    obtain ⟨b, hb, hl⟩ := Option.bind_eq_some_iff.1 hmake
    obtain ⟨v, rfl, rfl, -⟩ := Lexeme.view_of_ofRange (eq_ok_of_toOption hl)
    exact ⟨Or.inl (List.mem_of_getElem? hb), Lexeme.apart_ofView v⟩
  | whole i =>
    obtain ⟨b, hb, rfl⟩ := Option.map_eq_some_iff.1 hmake
    exact ⟨Or.inl (List.mem_of_getElem? hb), Lexeme.apart_ofView _⟩
  | copied text =>
    cases hmake
    exact ⟨Or.inr (by rw [Lexeme.text_whole]; rfl), Lexeme.apart_ofView _⟩
  | slice i start stop =>
    obtain ⟨p, hp, hl⟩ := Option.bind_eq_some_iff.1 hmake
    obtain ⟨-, v, rfl, hbuffer, -⟩ := Lexeme.view_of_slice (eq_ok_of_toOption hl)
    refine ⟨Or.inl ?_, Lexeme.apart_ofView v⟩
    exact hbuffer ▸ h.viewed p (List.mem_of_getElem? hp)
  | join parts =>
    obtain ⟨ps, hps, rfl⟩ := Option.map_eq_some_iff.1 hmake
    exact h.join (mem_of_mapM_getElem? hps)

theorem Sound.after (h : s.Sound) (m : Making) : (s.after m).Sound := by
  unfold Shelf.after
  cases hmake : s.make? m with
  | none => exact h
  | some l => 
    obtain ⟨hplaced, hapart⟩ := h.make hmake
    exact h.add hplaced hapart

theorem sound_run (texts : List Text) (makings : List Making) : (run texts makings).Sound := by
  have honto (s : Shelf) (h : s.Sound) : (makings.foldl Shelf.after s).Sound := by
    induction makings generalizing s with
    | nil => exact h
    | cons m makings ih => exact ih (s.after m) (h.after m)
  exact honto (ofTexts texts) (sound_ofTexts texts)

/-! ## All lexemes that can be made -/

/-- The lexemes view one buffer, and each ends where the next one starts. -/
def Contiguous : List Lexeme → Prop
  | [] => False
  | first :: rest => (∀ p ∈ rest, p.view.buffer = first.view.buffer) ∧
    (first :: rest).IsChain fun p q => p.stop = q.start

theorem contiguous_cons_iff : Contiguous (l :: parts) ↔ (l :: parts).IsChain Lexeme.Touches := by
  induction parts generalizing l with
  | nil => exact iff_of_true ⟨List.forall_mem_nil _, .singleton l⟩ (.singleton l)
  | cons p parts ih =>
    rw [List.isChain_cons_cons, ← ih, Lexeme.touches_iff]
    simp only [Contiguous, List.isChain_cons_cons, List.forall_mem_cons]
    constructor
    · rintro ⟨⟨hp, hbuffers⟩, hstop, hchain⟩
      exact ⟨⟨hstop, hp.symm⟩, fun q hq => (hbuffers q hq).trans hp.symm, hchain⟩
    · rintro ⟨⟨hstop, hp⟩, hbuffers, hchain⟩
      exact ⟨⟨hp.symm, fun q hq => (hbuffers q hq).trans hp.symm⟩, hstop, hchain⟩

/-- Joined lexemes share the buffer of the first one if they are contiguous. If they are not, they
have a new buffer, and so not that of any lexeme. -/
theorem Sound.sharesBuffer_join_iff (h : s.Sound) (hparts : ∀ p ∈ parts, p ∈ s.lexemes) :
    (∃ first ∈ parts.head?, (Lexeme.join s.fresh parts).sharesBuffer first = true) ↔
      Contiguous parts := by
  cases parts with
  | nil => exact iff_of_false (fun ⟨_, hfirst, _⟩ => nomatch hfirst) id
  | cons first rest =>
    have hapart : ∀ p ∈ first :: rest, p.Apart := fun p hp => h.apart p (hparts p hp)
    have hfirst : first ∈ first :: rest := List.mem_cons_self
    rw [contiguous_cons_iff]
    constructor
    · rintro ⟨_, ⟨⟩, hshares⟩
      by_contra hchain
      obtain ⟨-, hview⟩ := Lexeme.join_of_not_isChain s.fresh hapart hchain
      have hbuffer := of_decide_eq_true hshares
      rw [hview] at hbuffer
      have hmem := List.mem_map_of_mem (f := Buffer.label) (h.viewed first (hparts first hfirst))
      rw [← hbuffer] at hmem
      exact h.fresh_notMem hmem
    · intro hchain
      obtain ⟨-, hbuffer, -⟩ := Lexeme.join_of_isChain s.fresh (hapart first hfirst) hchain
      exact ⟨first, rfl, decide_eq_true hbuffer⟩

theorem Sound.view_join (h : s.Sound) (hparts : ∀ p ∈ parts, p ∈ s.lexemes)
    (hcontiguous : ¬ Contiguous parts) : (Lexeme.join s.fresh parts).view =
      .whole ⟨s.fresh, (Lexeme.join s.fresh parts).text⟩ := by
  cases parts with
  | nil => rfl
  | cons first rest =>
    rw [contiguous_cons_iff] at hcontiguous
    exact (Lexeme.join_of_not_isChain s.fresh (fun p hp => h.apart p (hparts p hp)) hcontiguous).2

/-- However lexemes are made, each views a range of a buffer between characters; joined ones have
the texts of their parts, and are a wider view of the first one's buffer if the parts are contiguous,
else all of a new buffer; and a slice of a slice is a slice, if its range is one of the slice. -/
theorem views_of_run (texts : List Text) (makings : List Making) :
    let s := run texts makings
    ((s.buffers.map Buffer.label).Nodup ∧ s.fresh ∉ s.buffers.map Buffer.label) ∧
    (∀ l ∈ s.lexemes, l.view.buffer ∈ s.buffers ∧
      l.view.buffer.text.slice? l.start l.stop = some l.text) ∧
    (∀ parts, (∀ p ∈ parts, p ∈ s.lexemes) →
      let joined := Lexeme.join s.fresh parts
      joined.text = parts.flatMap Lexeme.text ∧
      ((∃ first ∈ parts.head?, joined.sharesBuffer first = true) ↔ Contiguous parts) ∧
      (¬ Contiguous parts → joined.view = .whole ⟨s.fresh, joined.text⟩)) ∧
    ∀ l ∈ s.lexemes, ∀ a b m, l.slice a b = .ok m → ∀ c d,
      ((∃ k, m.slice c d = .ok k) ↔
        c ≤ d ∧ d ≤ m.length ∧ m.text.Boundary c ∧ m.text.Boundary d) ∧
      (d ≤ m.length → m.slice c d = l.slice (a + c) (a + d)) := by
  intro s
  have hs : s.Sound := sound_run texts makings
  refine ⟨⟨hs.nodup_labels, hs.fresh_notMem⟩, fun l hl => ⟨hs.viewed l hl, l.slice?_view⟩,
    fun parts hparts => ⟨Lexeme.text_join s.fresh parts, ?_, ?_⟩, ?_⟩
  · exact hs.sharesBuffer_join_iff hparts
  · exact hs.view_join hparts
  · intro l hl a b m hm c d
    exact ⟨Lexeme.exists_slice_iff, Lexeme.slice_slice hm⟩

/-- Two buffers with the same text: halves of one are joined without a copy, also with nothing
between them, and halves of both are copied. -/
example :
    let s := run [['a', 'b'], ['a', 'b']] [.range 0 0 1, .range 0 1 2, .range 1 1 2, .range 0 1 1,
      .join [0, 3, 1], .join [0, 2], .join []]
    s.lexemes.map (fun l => (l.text, l.view.buffer.label)) =
      [(['a'], some 0), (['b'], some 0), (['b'], some 1), ([], some 0), (['a', 'b'], some 0),
        (['a', 'b'], some 2), ([], some 3)] := by
  decide +kernel

end Shelf

end TokenTree
