import Imap2Pst.Mime.HeaderBlob

/-!
# Mime.Multipart

A multipart body put together from its parts, and that `parseEntity` takes it apart again.

* `HeaderBlock`        — header lines and the blank line after them.
* `findBoundary_eq`    — the first delimiter line is the one that is found.
* `splitParts_framed`  — the loop over the delimiter lines.
* `multipart_recovers` — the parts of the tree.
-/

namespace Imap2Pst
namespace Mime

open CxxStd

/-! ## Header blocks -/

/-- Lines that are fields or folds, up to the first blank line. -/
inductive HeaderBlock : Bytes → Prop
  | blank {l : Bytes} (hl : (10 : Byte) ∉ l) (hblank : stripLineCr l = []) : HeaderBlock (l ++ [10])
  | line {l rest : Bytes} (hl : (10 : Byte) ∉ l)
      (hline : startsFold (stripLineCr l) = true ∨ chr ':' ∈ stripLineCr l)
      (h : HeaderBlock rest) : HeaderBlock (l ++ 10 :: rest)

/-- The fields of a block are its own, whatever follows. -/
theorem fieldsOf_block {block : Bytes} (h : HeaderBlock block) (body : Bytes)
    (field : Option HeaderField) : fieldsOf field (block ++ body) = fieldsOf field block := by
  induction h generalizing field with
  | blank hl hblank =>
    rw [List.append_assoc, List.singleton_append, fieldsOf_line hl, fieldsOf_line hl, if_pos hblank,
      if_pos hblank]
  | line hl hline h ih =>
    rw [List.append_assoc, List.cons_append, fieldsOf_line hl, fieldsOf_line hl]
    simp only [ih]

/-- The body starts behind the block, whatever it is. -/
theorem headerLines_block {block : Bytes} (h : HeaderBlock block) (body : Bytes)
    (field : Option HeaderField) (i : Nat) :
    (headerLines field i (linesFrom i i [] (block ++ body))).2 = i + block.length := by
  induction h generalizing field i with
  | @blank l hl hblank =>
    rw [List.append_assoc, List.singleton_append, linesFrom_line hl, List.nil_append, headerLines,
      hblank, List.length_append]
    rfl
  | @line l rest hl hline h ih =>
    rw [List.append_assoc, List.cons_append, linesFrom_line hl, List.nil_append, headerLines]
    have hlength : i + l.length + 1 + rest.length = i + (l ++ 10 :: rest).length := by
      rw [List.length_append, List.length_cons]
      omega
    cases hstrip : stripLineCr l with
    | nil => simp [hstrip, startsFold] at hline
    | cons c t =>
      dsimp only
      split
      · exact (ih _ _).trans hlength
      · rename_i hfold
        have hcolon : chr ':' ∈ stripLineCr l := by
          refine hline.resolve_left fun hstart => hfold ?_
          simpa [startsFold, hstrip] using hstart
        rw [hstrip] at hcolon
        obtain ⟨pre, post, hsplit, hpre⟩ := List.eq_append_cons_of_mem hcolon
        have hfind : find (c :: t) (chr ':') 0 = some pre.length := by
          rw [find_of_append (by rw [List.drop_zero]; exact hsplit) hpre, Nat.zero_add]
        rw [hfind]
        exact (ih _ _).trans hlength

theorem parseHeaderBlock_block {block : Bytes} (h : HeaderBlock block) (body : Bytes) :
    parseHeaderBlock (block ++ body) = ((parseHeaderBlock block).1, block.length) := by
  have hbody := headerLines_block h body none 0
  rw [Nat.zero_add] at hbody
  exact Prod.ext (fieldsOf_block h body none) hbody

/-- What is read off the header block does not depend on the body. -/
theorem entityHead_block (icu : Converter) {block : Bytes} (h : HeaderBlock block) (body : Bytes) :
    entityHead icu (block ++ body) = { entityHead icu block with rawBody := body } := by
  unfold entityHead
  rw [parseHeaderBlock_block h]
  dsimp only
  rw [List.drop_left]

/-! ## Delimiter lines -/

def LineStart (s : Bytes) (k : Nat) : Prop := k = 0 ∨ s[k - 1]? = some 10

/-- No line starts with the marker. -/
def LineFree (boundary s : Bytes) : Prop := ∀ k, LineStart s k → ¬ marker boundary <+: s.drop k

/-- A prefix does not reach past an octet it does not have. -/
theorem prefix_of_not_mem {m a rest : Bytes} {x : Byte} (h : m <+: a ++ x :: rest) (hx : x ∉ m) :
    m <+: a := by
  induction a generalizing m with
  | nil =>
    cases m with
    | nil => exact List.prefix_rfl
    | cons y m =>
      rw [List.nil_append, List.cons_prefix_cons] at h
      exact absurd (h.1 ▸ List.mem_cons_self) hx
  | cons b a ih =>
    cases m with
    | nil => exact List.nil_prefix
    | cons y m =>
      rw [List.cons_append, List.cons_prefix_cons] at h
      rw [List.mem_cons, not_or] at hx
      exact List.cons_prefix_cons.2 ⟨h.1, ih h.2 hx.2⟩

theorem feed_not_mem_marker {boundary : Bytes} (hb : (10 : Byte) ∉ boundary) :
    (10 : Byte) ∉ marker boundary := by
  rw [marker, List.mem_append, not_or]
  exact ⟨by decide, hb⟩

instance (s : Bytes) (k : Nat) : Decidable (LineStart s k) := inferInstanceAs (Decidable (_ ∨ _))

instance (boundary s : Bytes) : Decidable (LineFree boundary s) :=
  decidable_of_iff (∀ k < s.length, LineStart s k → ¬ marker boundary <+: s.drop k) <| by
    refine ⟨fun h k hstart hmark_at => ?_, fun h k _ => h k⟩
    rcases Nat.lt_or_ge k s.length with hk | hk
    · exact h k hk hstart hmark_at
    · rw [List.drop_eq_nil_of_le hk, List.prefix_nil] at hmark_at
      exact marker_ne_nil boundary hmark_at

theorem findPat_le {pat s : Bytes} {k : Nat} (h : pat <+: s.drop k) (hpat : pat ≠ []) :
    ∃ j ≤ k, findPat pat s = some j := by
  induction s generalizing k with
  | nil =>
    rw [List.drop_nil, List.prefix_nil] at h
    exact absurd h hpat
  | cons c s ih =>
    rw [findPat]
    split
    · exact ⟨0, Nat.zero_le k, rfl⟩
    · rename_i hne
      cases k with
      | zero => exact absurd h hne
      | succ k =>
        obtain ⟨j, hj, hfind⟩ := ih h
        exact ⟨j + 1, Nat.succ_le_succ hj, by rw [hfind]; rfl⟩

theorem findSub_le {s pat : Bytes} {i k : Nat} (h : pat <+: s.drop k) (hpat : pat ≠ [])
    (hi : i ≤ k) : ∃ j ≤ k, findSub s pat i = some j := by
  have hdrop : pat <+: (s.drop i).drop (k - i) := by
    rw [List.drop_drop, Nat.add_sub_cancel' hi]
    exact h
  obtain ⟨j, hj, hfind⟩ := findPat_le hdrop hpat
  exact ⟨j + i, by omega, by rw [findSub, hfind]; rfl⟩

/-- A line does not start within a marker. -/
theorem not_lineStart_within {boundary s : Bytes} {at_ k : Nat} (hb : (10 : Byte) ∉ boundary)
    (h : marker boundary <+: s.drop at_) (hlt : at_ < k) (hk : k < at_ + (marker boundary).length) :
    ¬ LineStart s k := by
  rintro (rfl | hfeed)
  · omega
  · obtain ⟨rest, hrest⟩ := h
    have hget : (marker boundary)[k - 1 - at_]? = some 10 := by
      rw [← @List.getElem?_append_left _ (marker boundary) rest _ (by omega), hrest, List.getElem?_drop]
      rw [show at_ + (k - 1 - at_) = k - 1 by omega, hfeed]
    exact feed_not_mem_marker hb (List.mem_of_getElem? hget)

/-- The search stops at the first line that starts with the marker. -/
theorem findBoundary_eq {body boundary : Bytes} {i k : Nat} (hb : (10 : Byte) ∉ boundary)
    (hi : i ≤ k) (hk : marker boundary <+: body.drop k) (hline : LineStart body k)
    (hfirst : ∀ j, i ≤ j → j < k → LineStart body j → ¬ marker boundary <+: body.drop j) :
    findBoundary body boundary i = some (boundaryAt body boundary k) := by
  fun_induction findBoundary body boundary i with
  | case1 i hnone =>
    obtain ⟨j, -, hfind⟩ := findSub_le hk (marker_ne_nil boundary) hi
    rw [hnone] at hfind
    cases hfind
  | case2 i at_ hsome hstart =>
    obtain ⟨j, hj, hfind⟩ := findSub_le hk (marker_ne_nil boundary) hi
    obtain ⟨hle, -, hpre⟩ := findSub_eq_some hsome (marker_ne_nil boundary)
    rw [hsome] at hfind
    cases hfind
    rcases Nat.lt_or_eq_of_le hj with hlt | rfl
    · exact absurd hpre (hfirst at_ hle hlt hstart)
    · rfl
  | case3 i at_ hsome hstart ih =>
    obtain ⟨j, hj, hfind⟩ := findSub_le hk (marker_ne_nil boundary) hi
    obtain ⟨hle, -, hpre⟩ := findSub_eq_some hsome (marker_ne_nil boundary)
    rw [hsome] at hfind
    cases hfind
    have hlt : at_ < k := by
      rcases Nat.lt_or_eq_of_le hj with hlt | rfl
      · exact hlt
      · exact absurd hline hstart
    have hnext : at_ + (marker boundary).length ≤ k := by
      by_contra hgt
      exact not_lineStart_within hb hpre hlt (by omega) hline
    exact ih hnext fun j hj => hfirst j (by omega)

/-- What is found is a line that starts with the marker. -/
theorem findBoundary_sound {body boundary : Bytes} {i : Nat} {b : Boundary}
    (h : findBoundary body boundary i = some b) :
    i ≤ b.at_ ∧ LineStart body b.at_ ∧ marker boundary <+: body.drop b.at_ := by
  fun_induction findBoundary body boundary i with
  | case1 i hnone => cases h
  | case2 i at_ hsome hstart =>
    cases h
    obtain ⟨hle, -, hpre⟩ := findSub_eq_some hsome (marker_ne_nil boundary)
    exact ⟨hle, hstart, hpre⟩
  | case3 i at_ hsome hstart ih =>
    obtain ⟨hle, -, -⟩ := findSub_eq_some hsome (marker_ne_nil boundary)
    obtain ⟨hat, hrest⟩ := ih h
    exact ⟨by omega, hrest⟩

/-! ## Parts -/

/-- A line free of the marker stays so up to what follows its end. -/
theorem not_prefix_of_lineFree {boundary pre rest : Bytes} (hb : (10 : Byte) ∉ boundary)
    (hpre : pre = [] ∨ pre.getLast? = some 10) (hfree : LineFree boundary pre) {k : Nat}
    (hk : k < pre.length) (hstart : LineStart pre k) :
    ¬ marker boundary <+: (pre ++ rest).drop k := by
  intro h
  rcases hpre with rfl | hlast
  · cases hk
  · obtain ⟨s, rfl⟩ := List.getLast?_eq_some_iff.1 hlast
    rw [List.length_append, List.length_singleton] at hk
    rw [List.append_assoc, List.singleton_append, List.drop_append_of_le_length (by omega)] at h
    refine hfree k hstart ?_
    rw [List.drop_append_of_le_length (by omega)]
    exact (prefix_of_not_mem h (feed_not_mem_marker hb)).trans (List.prefix_append _ _)

theorem lineStart_append_left {a b : Bytes} {k : Nat} (hk : k ≤ a.length) :
    LineStart (a ++ b) k ↔ LineStart a k := by
  unfold LineStart
  cases k with
  | zero => simp
  | succ k => rw [Nat.add_sub_cancel, List.getElem?_append_left (Nat.lt_of_succ_le hk)]

theorem lineStart_append_right {a b : Bytes} {k : Nat} (h : LineStart (a ++ b) (a.length + k)) :
    LineStart b k := by
  cases k with
  | zero => exact .inl rfl
  | succ k =>
    refine .inr (h.elim (fun h => by omega) fun h => ?_)
    rwa [show a.length + (k + 1) - 1 = a.length + k by omega, List.getElem?_append_right (by omega),
      Nat.add_sub_cancel_left] at h

theorem lineStart_end {s : Bytes} (h : s = [] ∨ s.getLast? = some 10) : LineStart s s.length := by
  rcases h with rfl | h
  · exact .inl rfl
  · rw [List.getLast?_eq_getElem?] at h
    exact .inr h

/-- `done` ends a line; behind it no line starts with the marker before the one that does. -/
theorem findBoundary_behind {boundary done pre rest : Bytes} (hb : (10 : Byte) ∉ boundary)
    (hdone : done = [] ∨ done.getLast? = some 10) (hpre : pre = [] ∨ pre.getLast? = some 10)
    (hfree : LineFree boundary pre) :
    findBoundary (done ++ (pre ++ (marker boundary ++ rest))) boundary done.length =
      some (boundaryAt (done ++ (pre ++ (marker boundary ++ rest))) boundary
        (done.length + pre.length)) := by
  refine findBoundary_eq hb (Nat.le_add_right _ _) ?_ ?_ ?_
  · rw [List.drop_append, List.drop_eq_nil_of_le (by omega), List.nil_append,
      Nat.add_sub_cancel_left, List.drop_left]
    exact List.prefix_append _ _
  · have hend : done ++ pre = [] ∨ (done ++ pre).getLast? = some 10 := by
      rcases hpre with rfl | hpre
      · rwa [List.append_nil]
      · rw [List.getLast?_append, hpre]
        exact .inr rfl
    rw [← List.append_assoc, lineStart_append_left (by rw [List.length_append]),
      ← List.length_append]
    exact lineStart_end hend
  · intro j hj hlt hstart
    obtain ⟨m, rfl⟩ := Nat.exists_eq_add_of_le hj
    rw [List.drop_append, List.drop_eq_nil_of_le (by omega), List.nil_append,
      Nat.add_sub_cancel_left]
    refine not_prefix_of_lineFree hb hpre hfree (by omega) ?_
    exact (lineStart_append_left (by omega)).1 (lineStart_append_right hstart)

theorem findBoundary_none {boundary done pre : Bytes} (hfree : LineFree boundary pre) :
    findBoundary (done ++ pre) boundary done.length = none := by
  cases h : findBoundary (done ++ pre) boundary done.length with
  | none => rfl
  | some b =>
    obtain ⟨hle, hstart, hmark_at⟩ := findBoundary_sound h
    obtain ⟨m, hm⟩ := Nat.exists_eq_add_of_le hle
    rw [hm] at hstart hmark_at
    rw [List.drop_append, List.drop_eq_nil_of_le (by omega), List.nil_append,
      Nat.add_sub_cancel_left] at hmark_at
    exact absurd hmark_at (hfree m (lineStart_append_right hstart))

/-- The line end before a delimiter line belongs to the delimiter. -/
theorem trimTrailingLineEnd_crlf (p : Bytes) : trimTrailingLineEnd (p ++ [13, 10]) = p := by
  have hsplit : p ++ [13, 10] = (p ++ [13]) ++ [10] := by rw [List.append_assoc]; rfl
  rw [trimTrailingLineEnd, hsplit]
  simp

/-- The delimiter lines before the parts, each part with its line end. -/
def framed (boundary : Bytes) (parts : List Bytes) : Bytes :=
  parts.flatMap fun p => marker boundary ++ ([13, 10] ++ (p ++ [13, 10]))

def closing (boundary : Bytes) : Bytes := marker boundary ++ str "--\r\n"

/-- The line end of a part starts no line with the marker. -/
theorem lineFree_crlf {boundary p : Bytes} (hb : (10 : Byte) ∉ boundary ∧ (13 : Byte) ∉ boundary)
    (h : LineFree boundary p) : LineFree boundary (p ++ [13, 10]) := by
  intro k hstart hmark_at
  have hmark : (13 : Byte) ∉ marker boundary := by
    rw [marker, List.mem_append, not_or]
    exact ⟨by decide, hb.2⟩
  rcases Nat.lt_or_ge p.length k with hlt | hle
  · rw [List.drop_append, List.drop_eq_nil_of_le (Nat.le_of_lt hlt), List.nil_append] at hmark_at
    have hdash : chr '-' ∈ marker boundary := List.mem_cons_self
    have hmem := (List.drop_sublist _ _).subset (hmark_at.subset hdash)
    exact absurd hmem (by decide)
  · rw [List.drop_append_of_le_length hle] at hmark_at
    exact h k ((lineStart_append_left hle).1 hstart) (prefix_of_not_mem hmark_at hmark)

/-- The delimiter line at the end of `front`, and what it says of the multipart. -/
theorem boundaryAt_crlf (boundary front rest : Bytes) :
    boundaryAt (front ++ (marker boundary ++ ([13, 10] ++ rest))) boundary front.length =
      ⟨front.length, (front ++ (marker boundary ++ [13, 10])).length, false⟩ := by
  have hafter : (front ++ (marker boundary ++ ([13, 10] ++ rest))).drop
      (front.length + (marker boundary).length) = [13] ++ 10 :: rest := by
    rw [← List.append_assoc, ← List.length_append, List.drop_left]
    rfl
  have hfinal : ¬ ([13] ++ 10 :: rest).take 2 = str "--" := by
    intro h
    exact absurd (List.cons.inj h).1 (by decide)
  rw [boundaryAt, hafter]
  simp only [hfinal, decide_false, if_false,
    find_of_append hafter (by decide : (10 : Byte) ∉ [13])]
  simp [Nat.add_assoc]

theorem isFinal_closing (boundary front rest : Bytes) :
    (boundaryAt (front ++ (closing boundary ++ rest)) boundary front.length).isFinal = true := by
  have hafter : (front ++ (closing boundary ++ rest)).drop
      (front.length + (marker boundary).length) = str "--\r\n" ++ rest := by
    rw [closing, List.append_assoc, ← List.append_assoc, ← List.length_append, List.drop_left]
  rw [boundaryAt]
  dsimp only
  rw [hafter]
  exact decide_eq_true rfl

/-- One turn of the loop: the part up to the next delimiter line. -/
theorem splitParts_part {boundary done p rest : Bytes}
    (hb : (10 : Byte) ∉ boundary ∧ (13 : Byte) ∉ boundary)
    (hdone : done = [] ∨ done.getLast? = some 10) (hfree : LineFree boundary p) :
    splitParts (done ++ ((p ++ [13, 10]) ++ (marker boundary ++ ([13, 10] ++ rest)))) boundary
        done.length true =
      p :: splitParts (done ++ ((p ++ [13, 10]) ++ (marker boundary ++ ([13, 10] ++ rest)))) boundary
        (done ++ ((p ++ [13, 10]) ++ (marker boundary ++ [13, 10]))).length true := by
  have hfound := @findBoundary_behind boundary done (p ++ [13, 10]) ([13, 10] ++ rest) hb.1 hdone
    (.inr (by simp)) (lineFree_crlf hb hfree)
  have hat := boundaryAt_crlf boundary (done ++ (p ++ [13, 10])) rest
  rw [List.append_assoc, List.length_append] at hat
  rw [hat] at hfound
  rw [splitParts.eq_def]
  split
  · rename_i h
    rw [h] at hfound
    cases hfound
  · rename_i b h
    rw [h] at hfound
    cases hfound
    have hslice : slice (done ++ ((p ++ [13, 10]) ++ (marker boundary ++ ([13, 10] ++ rest))))
        done.length (done.length + (p ++ [13, 10]).length - done.length) = p ++ [13, 10] := by
      rw [slice, List.drop_left, Nat.add_sub_cancel_left, List.take_left]
    dsimp only
    rw [hslice, trimTrailingLineEnd_crlf, if_neg Bool.false_ne_true, if_pos rfl,
      List.singleton_append, List.append_assoc done]

/-- The last part, up to the closing delimiter. -/
theorem splitParts_last {boundary done p rest : Bytes}
    (hb : (10 : Byte) ∉ boundary ∧ (13 : Byte) ∉ boundary)
    (hdone : done = [] ∨ done.getLast? = some 10) (hfree : LineFree boundary p) :
    splitParts (done ++ ((p ++ [13, 10]) ++ (closing boundary ++ rest))) boundary done.length true =
      [p] := by
  have hfound : findBoundary (done ++ ((p ++ [13, 10]) ++ (closing boundary ++ rest))) boundary
      done.length = some (boundaryAt (done ++ ((p ++ [13, 10]) ++ (closing boundary ++ rest)))
        boundary (done.length + (p ++ [13, 10]).length)) := by
    rw [closing, List.append_assoc (marker boundary)]
    exact findBoundary_behind hb.1 hdone (.inr (by simp)) (lineFree_crlf hb hfree)
  have hfinal := isFinal_closing boundary (done ++ (p ++ [13, 10])) rest
  rw [List.append_assoc, List.length_append] at hfinal
  rw [splitParts.eq_def]
  split
  · rename_i h
    rw [h] at hfound
    cases hfound
  · rename_i b h
    have hb := Option.some.inj (h.symm.trans hfound)
    have hslice : slice (done ++ ((p ++ [13, 10]) ++ (closing boundary ++ rest)))
        done.length (b.at_ - done.length) = p ++ [13, 10] := by
      rw [hb]
      show slice _ _ (done.length + (p ++ [13, 10]).length - done.length) = _
      rw [slice, List.drop_left, Nat.add_sub_cancel_left, List.take_left]
    dsimp only
    rw [hslice, trimTrailingLineEnd_crlf, if_pos (hb ▸ hfinal), if_pos rfl]

/-- What is cut off in the last part. -/
theorem splitParts_cut {boundary done p : Bytes}
    (hb : (10 : Byte) ∉ boundary ∧ (13 : Byte) ∉ boundary) (hfree : LineFree boundary p) :
    splitParts (done ++ (p ++ [13, 10])) boundary done.length true = [p ++ [13, 10]] := by
  rw [splitParts.eq_def]
  split
  · rw [if_pos ⟨rfl, by simp⟩, List.drop_left]
  · rename_i b h
    rw [findBoundary_none (lineFree_crlf hb hfree)] at h
    cases h

/-- The loop over the delimiter lines, up to the last part. -/
theorem splitParts_loop {boundary p : Bytes} {parts : List Bytes} {done rest : Bytes}
    (hb : (10 : Byte) ∉ boundary ∧ (13 : Byte) ∉ boundary)
    (hdone : done = [] ∨ done.getLast? = some 10) (hfree : ∀ q ∈ p :: parts, LineFree boundary q) :
    ∃ done', (done' = [] ∨ done'.getLast? = some 10) ∧
      done ++ ((p ++ [13, 10]) ++ (framed boundary parts ++ rest)) =
        done' ++ (((p :: parts).getLastD [] ++ [13, 10]) ++ rest) ∧
      splitParts (done ++ ((p ++ [13, 10]) ++ (framed boundary parts ++ rest))) boundary done.length
          true =
        (p :: parts).dropLast ++ splitParts
          (done ++ ((p ++ [13, 10]) ++ (framed boundary parts ++ rest))) boundary
          done'.length true := by
  induction parts generalizing p done with
  | nil => exact ⟨done, hdone, rfl, rfl⟩
  | cons q parts ih =>
    have hbody : done ++ ((p ++ [13, 10]) ++ (framed boundary (q :: parts) ++ rest)) =
        (done ++ ((p ++ [13, 10]) ++ (marker boundary ++ [13, 10]))) ++
          ((q ++ [13, 10]) ++ (framed boundary parts ++ rest)) := by
      simp [framed]
    have hend : (done ++ ((p ++ [13, 10]) ++ (marker boundary ++ [13, 10]))).getLast? = some 10 :=
      List.getLast?_eq_some_iff.2 ⟨done ++ ((p ++ [13, 10]) ++ (marker boundary ++ [13])), by simp⟩
    have hshape : done ++ ((p ++ [13, 10]) ++ (framed boundary (q :: parts) ++ rest)) =
        done ++ ((p ++ [13, 10]) ++ (marker boundary ++ ([13, 10] ++
          ((q ++ [13, 10]) ++ (framed boundary parts ++ rest))))) := by
      simp [framed]
    obtain ⟨done', hdone', heq, hloop⟩ := ih (p := q) (.inr hend) fun x hx =>
      hfree x (List.mem_cons_of_mem _ hx)
    refine ⟨done', hdone', hbody.trans heq, ?_⟩
    have hpart := @splitParts_part boundary done p ((q ++ [13, 10]) ++ (framed boundary parts ++ rest))
      hb hdone (hfree p List.mem_cons_self)
    rw [hshape, hpart, ← hshape, hbody, hloop]
    rfl

/-- What comes before the first delimiter line is no part. -/
theorem splitParts_first {boundary preamble rest : Bytes} (hb : (10 : Byte) ∉ boundary)
    (hpre : preamble = [] ∨ preamble.getLast? = some 10) (hfree : LineFree boundary preamble) :
    splitParts (preamble ++ (marker boundary ++ ([13, 10] ++ rest))) boundary 0 false =
      splitParts (preamble ++ (marker boundary ++ ([13, 10] ++ rest))) boundary
        (preamble ++ (marker boundary ++ [13, 10])).length true := by
  have hfound := @findBoundary_behind boundary [] preamble ([13, 10] ++ rest) hb (.inl rfl) hpre hfree
  rw [List.nil_append, List.length_nil, Nat.zero_add, boundaryAt_crlf] at hfound
  rw [splitParts.eq_def]
  split
  · rename_i h
    rw [h] at hfound
    cases hfound
  · rename_i b h
    rw [h] at hfound
    cases hfound
    dsimp only
    rw [if_neg Bool.false_ne_true, if_neg Bool.false_ne_true, List.nil_append]

/-- A multipart body falls into its parts, and so does one that is cut off before its end. -/
theorem splitParts_framed {boundary preamble : Bytes} {parts : List Bytes}
    (hb : (10 : Byte) ∉ boundary ∧ (13 : Byte) ∉ boundary)
    (hpre : preamble = [] ∨ preamble.getLast? = some 10) (hfree : LineFree boundary preamble)
    (hparts : parts ≠ []) (hfrees : ∀ p ∈ parts, LineFree boundary p) (epilogue : Bytes) :
    splitParts (preamble ++ (framed boundary parts ++ (closing boundary ++ epilogue))) boundary 0
        false = parts ∧
      splitParts (preamble ++ framed boundary parts) boundary 0 false =
        parts.dropLast ++ [parts.getLastD [] ++ [13, 10]] := by
  obtain ⟨p, ps, rfl⟩ := List.exists_cons_of_ne_nil hparts
  have hlast : LineFree boundary ((p :: ps).getLastD []) := by
    rw [List.getLastD_eq_getLast?, List.getLast?_eq_some_getLast hparts]
    exact hfrees _ (List.getLast_mem hparts)
  have hend : (preamble ++ (marker boundary ++ [13, 10])).getLast? = some 10 :=
    List.getLast?_eq_some_iff.2 ⟨preamble ++ (marker boundary ++ [13]), by simp⟩
  have hfirst (rest : Bytes) : preamble ++ (framed boundary (p :: ps) ++ rest) =
      preamble ++ (marker boundary ++
        ([13, 10] ++ ((p ++ [13, 10]) ++ (framed boundary ps ++ rest)))) := by
    simp [framed]
  have hbody (rest : Bytes) : preamble ++ (framed boundary (p :: ps) ++ rest) =
      (preamble ++ (marker boundary ++ [13, 10])) ++
        ((p ++ [13, 10]) ++ (framed boundary ps ++ rest)) := by
    simp [framed]
  have hsplit (rest : Bytes) := @splitParts_first boundary preamble
    ((p ++ [13, 10]) ++ (framed boundary ps ++ rest)) hb.1 hpre hfree
  constructor
  · obtain ⟨done', hdone', heq, hloop⟩ := @splitParts_loop boundary p ps _
      (closing boundary ++ epilogue) hb (.inr hend) hfrees
    rw [hfirst, hsplit, ← hfirst, hbody, hloop, heq, splitParts_last hb hdone' hlast,
      List.getLastD_eq_getLast?, List.getLast?_eq_some_getLast hparts, Option.getD_some,
      List.dropLast_concat_getLast]
  · obtain ⟨done', hdone', heq, hloop⟩ := @splitParts_loop boundary p ps _ [] hb (.inr hend) hfrees
    rw [← List.append_nil (framed boundary (p :: ps)), hfirst, hsplit, ← hfirst, hbody, hloop, heq,
      List.append_nil, splitParts_cut hb hlast]

/-! ## The tree -/

variable (icu : Converter)

/-- The parts of a multipart entity are cut from what follows its header block. -/
theorem parseEntity_parts {block : Bytes} (hblock : HeaderBlock block)
    (hmulti : (entityHead icu block).isMultipart = true)
    (hboundary : boundaryOf icu (entityHead icu block) ≠ []) {depth : Nat}
    (hdepth : depth < kMaxNestingDepth) (body : Bytes) :
    (parseEntity icu (block ++ body) depth).parts =
      (splitParts body (boundaryOf icu (entityHead icu block)) 0 false).map
        fun part => parseEntity icu part (depth + 1) := by
  have hlevels : kMaxNestingDepth - depth = (kMaxNestingDepth - (depth + 1)) + 1 := by omega
  have hhead := entityHead_block icu hblock body
  have hsplit : (entityHead icu (block ++ body)).isMultipart ∧
      boundaryOf icu (entityHead icu (block ++ body)) ≠ [] := by
    rw [hhead]
    exact ⟨hmulti, hboundary⟩
  rw [parseEntity, hlevels, parseEntityAt, if_pos hsplit, hhead]
  rfl

/-- **Multipart.** The parts of a multipart body are the parts of the tree, one level deeper; where
    the closing delimiter is cut off the last part keeps its line end. -/
theorem multipart_recovers {block boundary preamble : Bytes} {parts : List Bytes} {depth : Nat}
    (hblock : HeaderBlock block) (hmulti : (entityHead icu block).isMultipart = true)
    (hboundary : boundaryOf icu (entityHead icu block) = boundary) (hne : boundary ≠ [])
    (hb : (10 : Byte) ∉ boundary ∧ (13 : Byte) ∉ boundary) (hdepth : depth < kMaxNestingDepth)
    (hpre : preamble = [] ∨ preamble.getLast? = some 10) (hfree : LineFree boundary preamble)
    (hparts : parts ≠ []) (hfrees : ∀ p ∈ parts, LineFree boundary p) (epilogue : Bytes) :
    (parseEntity icu (block ++ (preamble ++ (framed boundary parts ++
        (closing boundary ++ epilogue)))) depth).parts =
        parts.map (fun p => parseEntity icu p (depth + 1)) ∧
      (parseEntity icu (block ++ (preamble ++ framed boundary parts)) depth).parts =
        (parts.dropLast ++ [parts.getLastD [] ++ str "\r\n"]).map
          fun p => parseEntity icu p (depth + 1) := by
  subst hboundary
  obtain ⟨hclosed, hcut⟩ := splitParts_framed hb hpre hfree hparts hfrees epilogue
  constructor
  · rw [parseEntity_parts icu hblock hmulti hne hdepth, hclosed]
  · rw [parseEntity_parts icu hblock hmulti hne hdepth, hcut]
    rfl

def sepBlock : Bytes := str "Content-Type: multipart/mixed; boundary=sep\r\n\r\n"

theorem sepBlock_header : HeaderBlock sepBlock :=
  @HeaderBlock.line (str "Content-Type: multipart/mixed; boundary=sep\r") _ (by decide +kernel)
    (.inr (by decide +kernel)) (@HeaderBlock.blank [13] (by decide) (by decide))

/-- A part that has the marker in a line, and an empty one. -/
theorem sep_recovers :
    (parseEntity (fun _ _ => none) (sepBlock ++ (str "preamble\r\n" ++
        (framed (str "sep") [str "\r\ntext --sep", []] ++ (closing (str "sep") ++ str "--sep")))) 7).parts =
      [parseEntity (fun _ _ => none) (str "\r\ntext --sep") 8, parseEntity (fun _ _ => none) [] 8] :=
  (multipart_recovers (fun _ _ => none) sepBlock_header (by decide +kernel) (by decide +kernel)
    (by decide +kernel) (by decide +kernel) (by decide) (by decide +kernel) (by decide +kernel)
    (by decide) (by decide +kernel) (str "--sep")).1

end Mime
end Imap2Pst
