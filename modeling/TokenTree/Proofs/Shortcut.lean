import TokenTree.Proofs.Lifecycle

/-!
# The shortcut for runs

A chunk that only lengthens the run held back is added to it without a scan. This never shows
(`Session.Usage.shortcut_unseen`): a run is remembered only where a scan found all of the text held
back to be that run and no comment or operator to start there, and none can start there in a longer
text. Nor is the shortcut ever missed (`Session.AtRest.extendsRun_iff`): it is taken for every chunk
after which a scan would hold back all text as the same run.
-/

namespace TokenTree

namespace Session

variable {config : Config} {s : Session} {chunk : Text}

/-- `feed`, with a rule of its own for the chunks that are held back without a scan. -/
def feedBy (shortcut : Session → Text → Bool) (config : Config) (s : Session) (chunk : Text)
    (final : Bool) : Session × Output :=
  if s.finished then (s, ⟨[], .refused .sessionFinished⟩)
  else if maxOffset < s.offset + Text.size s.pending + Text.size chunk then
    (s, ⟨[], .refused .offsetOverflow⟩)
  else if !final && shortcut s chunk then
    settle false [] { s with pending := s.pending ++ chunk }
  else
    scan config s chunk final

theorem feed_eq_feedBy (config : Config) : feed config = feedBy (extendsRun config) config := rfl

/-- Without any shortcut a chunk that is not refused is scanned. -/
theorem feedBy_never (h : s.finished = false)
    (hsize : s.offset + Text.size s.pending + Text.size chunk ≤ maxOffset) (config : Config)
    (final : Bool) :
    s.feedBy (fun _ _ => false) config chunk final = s.scan config chunk final := by
  rw [feedBy, if_neg (by simp [h]), if_neg (Nat.not_lt.2 hsize), Bool.and_false,
    if_neg Bool.false_ne_true]

/-- The chunks that are held back without a scan are those after which a scan would hold back all
text, as a run of the kind that is remembered. -/
theorem AtRest.extendsRun_iff (h : AtRest config s) (chunk : Text) :
    s.extendsRun config chunk = true ↔ chunk ≠ [] ∧
      ∃ run, s.run = some run ∧ (s.scan config chunk false).1.run = some run ∧
        (s.scan config chunk false).1.pending = s.pending ++ chunk := by
  rw [extendsRun_eq_true_iff]
  constructor
  · rintro ⟨run, word, hrun, hm⟩
    have hchunk : chunk ≠ [] := by
      rintro rfl
      cases hm
    obtain ⟨cuts, hscan, -, -⟩ := Scan.ofBuffer_scans config false s.offset
      ⟨some s.offset, s.pending ++ chunk⟩ (h.fits.append chunk)
    have hrests := h.rests
    rw [hrun] at hrests
    obtain ⟨-, hstop⟩ := hscan.det (scans_run hrests hm)
    injection hstop with _ hrest hrun'
    exact ⟨hchunk, run, hrun, hrun', hrest⟩
  · rintro ⟨hchunk, run, hrun, hrun', hrest⟩
    have hrests := (scan_atRest h chunk).rests
    rw [hrest, hrun'] at hrests
    obtain ⟨-, -, -, word, hm⟩ := munch_of_scans hrests
    have hall := List.forall_mem_append.1 (SymbolSet.classOf_of_munch_run hm)
    exact ⟨run, chunk, hrun, SymbolSet.munch_of_all hchunk hall.2⟩

/-- The shortcut for runs cannot be told from a scan of the text held back and the chunk: in every
session, however it was used before, it gives the same tokens and the same status, and leaves the
same session. -/
theorem Usage.shortcut_unseen (config : Config) (history : List Call) (chunk : Text) :
    let s := (start.run config history).session
    s.feed config chunk false = s.feedBy (fun _ _ => false) config chunk false := by
  intro s
  have hkept : Kept config (start.run config history) := (start_kept config).run history
  cases hfinished : s.finished with
  | true => rw [feed_of_finished hfinished, feedBy, if_pos hfinished]
  | false =>
    by_cases hsize : s.offset + Text.size s.pending + Text.size chunk ≤ maxOffset
    · rw [feed_eq_scan (hkept.rests hfinished) false hsize, feedBy_never hfinished hsize]
    · rw [feed_of_unfit hfinished (Nat.lt_of_not_le hsize), feedBy, if_neg (by simp [hfinished]),
        if_pos (Nat.lt_of_not_le hsize)]

end Session

end TokenTree
