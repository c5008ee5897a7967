import Imap2Pst.Imap.Mailboxes

/-!
# Imap.Listing

The response to LIST. `splitLines` looks for a literal at the end of the line it has put together,
its payload included, so a name that ends in a count may take in what follows it.

* `attachLiterals_iff` — when a line that has its literals is left as it is.
* `splitLinesLoop_iff` — when the response splits into its lines.
* `readsListing_iff`   — when the mailboxes are read back.
-/

namespace Imap2Pst
namespace Imap

open CxxStd

/-! ## What a line ends in -/

/-- The end of line before the octets ends every count there. -/
theorem endsInCount_append {pre s : Bytes} {n : Nat} :
    EndsInCount (pre ++ 10 :: s) n ↔ EndsInCount s n := by
  constructor
  · rintro ⟨before, digits, hs, hne, hdigits, hn⟩
    have hnl : (10 : Byte) ∉ 123 :: (digits ++ [125]) := by
      have hdigit : (10 : Byte) ∉ digits := fun hmem => absurd (hdigits _ hmem) (by decide)
      simp [hdigit]
    have hcount : 123 :: (digits ++ [125]) <:+ pre ++ 10 :: s := ⟨before, hs.symm⟩
    have hcount' : 123 :: (digits ++ [125]) <:+ s := by
      rcases List.suffix_or_suffix_of_suffix hcount (List.suffix_append pre (10 :: s)) with h | h
      · rcases List.suffix_cons_iff.1 h with heq | h
        · cases heq
        · exact h
      · exact absurd (h.subset List.mem_cons_self) hnl
    obtain ⟨before', rfl⟩ := hcount'
    exact ⟨before', digits, rfl, hne, hdigits, hn⟩
  · rintro ⟨before, digits, rfl, hne, hdigits, hn⟩
    exact ⟨pre ++ 10 :: before, digits, by simp, hne, hdigits, hn⟩

namespace SentMailbox

/-- Only a literal can end its line in a count. -/
theorem endsInCount_text (m : SentMailbox) {n : Nat} :
    EndsInCount m.text n ↔ m.isLiteral = true ∧ EndsInCount m.name n := by
  cases hlit : m.isLiteral with
  | false =>
    refine iff_of_false ?_ (by simp)
    rintro ⟨before, digits, htext, -⟩
    have hlast := congrArg List.getLast? htext
    rw [text, nameText, hlit, if_neg Bool.false_ne_true, quoted] at hlast
    simp [List.getLast?_append, List.getLast?_cons] at hlast
  | true =>
    have htext : m.text = (m.intro ++ (123 :: decimal m.name.length ++ [125, 13])) ++
        10 :: m.name := by
      simp [text, nameText, hlit, literal]
    rw [htext, endsInCount_append]
    simp

end SentMailbox

/-! ## Lines -/

/-- What is attached makes the line longer. -/
theorem prefix_of_attachLiterals {response : Bytes} :
    ∀ {fuel : Nat} {line : Bytes} {i : Nat} {line' : Bytes} {j : Nat},
      attachLiterals response fuel line i = .ok (line', j) → line <+: line' := by
  intro fuel
  induction fuel with
  | zero =>
    intro line i line' j h
    cases h
  | succ fuel ih =>
    intro line i line' j h
    rw [attachLiterals] at h
    split at h
    · cases h
      exact List.prefix_rfl
    · split at h
      · cases h
        exact List.prefix_rfl
      · split at h
        · cases h
        · refine List.IsPrefix.trans ?_ (ih h)
          rw [List.append_assoc, List.append_assoc]
          exact List.prefix_append _ _

theorem attachLiterals_iff {response line : Bytes} {fuel i j : Nat} :
    attachLiterals response (fuel + 1) line i = .ok (line, j) ↔
      j = i ∧ ∀ n, trailingLiteral line = some n → response.length < addSize i n := by
  rw [attachLiterals]
  cases hlit : trailingLiteral line with
  | none => simp [eq_comm]
  | some n =>
    dsimp only
    by_cases hguard : response.length < addSize i n
    · rw [if_pos hguard]
      simp [hguard, eq_comm]
    · rw [if_neg hguard]
      refine iff_of_false (fun h => ?_) fun h => hguard (h.2 n rfl)
      split at h
      · cases h
      · have hlen := (prefix_of_attachLiterals h).length_le
        simp only [List.length_append, List.length_cons] at hlen
        omega

namespace SentMailbox

theorem newline_not_mem_quoted {s : Bytes} (h : (10 : Byte) ∉ s) : (10 : Byte) ∉ quoted s := by
  have hescaped : (10 : Byte) ∉ escaped s := by
    intro hmem
    obtain ⟨c, hc, hmem⟩ := List.mem_flatMap.1 hmem
    have hne : c ≠ 10 := fun heq => h (heq ▸ hc)
    split at hmem
    · simp [hne.symm] at hmem
    · simp [hne.symm] at hmem
  simp [quoted, hescaped]

theorem newline_not_mem_intro (m : SentMailbox) : (10 : Byte) ∉ m.intro := by
  have hdelim : (10 : Byte) ∉ m.delimiterText := by
    unfold delimiterText
    cases hd : m.delimiter with
    | none => decide
    | some c =>
      refine newline_not_mem_quoted ?_
      rw [List.mem_singleton]
      exact (m.delimiter_plain c hd).2.symm
  have hlist : (10 : Byte) ∉ FetchItem.flagList (m.attributes.map ListAttribute.text) := by
    intro hmem
    rw [FetchItem.flagList, List.mem_append, List.mem_cons, List.mem_singleton] at hmem
    rcases hmem with (h | hmem) | h
    · exact absurd h (by decide)
    · rcases FetchItem.mem_spaced hmem with h | ⟨name, hname, hc⟩
      · exact absurd h (by decide)
      · exact absurd (m.isAtomChar_attributes name hname 10 hc) (by decide)
    · exact absurd h (by decide)
  have hword : (10 : Byte) ∉ str "* LIST " := by decide
  simp [intro, hword, hlist, hdelim]

/-- One line of the listing, its literal attached. -/
theorem splitLinesLoop_text (m : SentMailbox) {response rest : Bytes} {fuel i : Nat}
    (hlen : response.length < 2 ^ 63) (h : response.drop i = m.text ++ [13, 10] ++ rest) :
    ∃ k, splitLinesLoop response (fuel + 1) i =
      (attachLiterals response (k + 1) m.text (i + (m.text.length + 2))).bind fun (line, j) =>
        (splitLinesLoop response fuel j).map (line :: ·) := by
  have hlt : i < response.length := by
    by_contra hge
    rw [List.drop_of_length_le (by omega)] at h
    simp at h
  rw [splitLinesLoop, if_pos hlt]
  dsimp only
  cases hlit : m.isLiteral with
  | false =>
    have htext : m.text = m.intro ++ quoted m.name := by rw [text, nameText, hlit]; rfl
    have hplain : (10 : Byte) ∉ m.text := by
      have hname : (10 : Byte) ∉ m.name := fun hmem => (m.name_plain hlit 10 hmem).2 rfl
      rw [htext, List.mem_append, not_or]
      exact ⟨m.newline_not_mem_intro, newline_not_mem_quoted hname⟩
    have hline : response.drop i = m.text ++ [13] ++ 10 :: rest := by simpa using h
    obtain ⟨hend, hstrip, -⟩ := read_line hline hplain
    refine ⟨4 * response.length + 7, ?_⟩
    rw [hstrip, hend]
    rfl
  | true =>
    obtain ⟨head, hhead⟩ : ∃ head, head = m.intro ++ 123 :: (decimal m.name.length ++ [125]) :=
      ⟨_, rfl⟩
    have htext : m.text = head ++ [13, 10] ++ m.name := by
      rw [text, nameText, hlit, hhead]
      simp [literal]
    have hplain : (10 : Byte) ∉ head := by
      have hdigits : (10 : Byte) ∉ decimal m.name.length := fun hmem =>
        absurd (isDigit_of_mem_decimal hmem) (by decide)
      simp [hhead, m.newline_not_mem_intro, hdigits]
    have hline : response.drop i = head ++ [13] ++ 10 :: (m.name ++ ([13, 10] ++ rest)) := by
      rw [h, htext]
      simp
    obtain ⟨hend, hstrip, hnext⟩ := read_line hline hplain
    rw [hend, Nat.add_assoc i] at hnext
    have hafter : response.drop (i + (head.length + 1) + 1 + m.name.length) =
        [] ++ [13] ++ 10 :: rest := drop_of_append hnext
    obtain ⟨hend', hstrip', -⟩ := read_line hafter List.not_mem_nil
    have hcount : i + (head.length + 1) + 1 + m.name.length ≤ response.length := by
      have hsize := congrArg List.length hafter
      simp only [List.length_drop, List.nil_append, List.length_append, List.length_cons] at hsize
      omega
    have hname : m.name.length < wordSize := by
      unfold wordSize
      omega
    have hsum : addSize (i + (head.length + 1) + 1) m.name.length =
        i + (head.length + 1) + 1 + m.name.length := by
      refine addSize_of_lt ?_
      unfold wordSize
      omega
    refine ⟨4 * response.length + 6, ?_⟩
    have hattach : attachLiterals response (lineFuel response) head (i + (head.length + 1) + 1) =
        attachLiterals response (4 * response.length + 6 + 1) m.text (i + (m.text.length + 2)) := by
      have hlit' : trailingLiteral head = some m.name.length := by
        rw [hhead]
        exact trailingLiteral_announce m.intro hname
      have hj : i + (head.length + 1) + 1 + m.name.length + ([] : Bytes).length + 1 + 1 =
          i + (m.text.length + 2) := by
        rw [htext]
        simp
        omega
      rw [lineFuel, attachLiterals, hlit']
      dsimp only
      rw [hsum, if_neg (by omega), if_neg (by omega), slice_of_append hnext, hstrip', hend', hj,
        htext, List.append_nil]
    rw [hstrip, hend, ← hattach, Nat.add_assoc i]

end SentMailbox

/-! ## The listing -/

/-- Neither line nor mailbox is lost, made up or changed. -/
def ReadsListing (ms : List SentMailbox) : Prop :=
  splitLines (listResponse ms) = .ok (ms.map SentMailbox.text) ∧
    parseListResponse (listResponse ms) = .ok (ms.map SentMailbox.info)

theorem listResponse_cons (m : SentMailbox) (ms : List SentMailbox) :
    listResponse (m :: ms) = m.text ++ [13, 10] ++ listResponse ms := List.flatMap_cons

theorem listResponse_length (ms : List SentMailbox) (m : SentMailbox) :
    (listResponse (m :: ms)).length = m.text.length + 2 + (listResponse ms).length := by
  rw [listResponse_cons, List.length_append, List.length_append]
  rfl

theorem forall_split_cons {α : Type} {P : List α → α → Prop} {a : α} {l : List α} :
    (∀ pre x post, a :: l = pre ++ x :: post → P pre x) ↔
      P [] a ∧ ∀ pre x post, l = pre ++ x :: post → P (a :: pre) x := by
  constructor
  · intro h
    exact ⟨h [] a l rfl, fun pre x post hl => h (a :: pre) x post (by rw [hl]; rfl)⟩
  · rintro ⟨hhead, htail⟩ pre x post hl
    cases pre with
    | nil =>
      cases hl
      exact hhead
    | cons b pre =>
      obtain ⟨rfl, htl⟩ := List.cons.inj hl
      exact htail pre x post htl

/-- No name asks for octets that the response still has. -/
def Contained (size start : Nat) (ms : List SentMailbox) : Prop :=
  ∀ pre m post, ms = pre ++ m :: post → m.isLiteral = true → ∀ n, EndsInCount m.name n →
    size < addSize (start + (listResponse (pre ++ [m])).length) n

theorem contained_cons {size start : Nat} {m : SentMailbox} {ms : List SentMailbox} :
    Contained size start (m :: ms) ↔
      (∀ n, trailingLiteral m.text = some n → size < addSize (start + (m.text.length + 2)) n) ∧
        Contained size (start + (m.text.length + 2)) ms := by
  unfold Contained
  rw [forall_split_cons]
  refine and_congr ?_ ?_
  · simp only [trailingLiteral_eq_some_iff, m.endsInCount_text, and_imp, List.nil_append,
      listResponse_length, Nat.add_zero, show (listResponse []).length = 0 from rfl]
    exact ⟨fun h n hlit => h hlit n, fun h hlit n => h n hlit⟩
  · simp only [List.cons_append, listResponse_length, Nat.add_assoc]

theorem splitLinesLoop_iff {response : Bytes} (hlen : response.length < 2 ^ 63) :
    ∀ (ms : List SentMailbox) (fuel i : Nat), ms.length < fuel →
      response.drop i = listResponse ms →
      (splitLinesLoop response fuel i = .ok (ms.map SentMailbox.text) ↔
        Contained response.length i ms) := by
  intro ms
  induction ms with
  | nil =>
    intro fuel i hfuel hdrop
    obtain ⟨fuel, rfl⟩ := Nat.exists_eq_add_of_lt hfuel
    have hend : ¬ i < response.length := by
      have hsize := congrArg List.length hdrop
      rw [List.length_drop] at hsize
      exact Nat.not_lt.2 (Nat.sub_eq_zero_iff_le.1 hsize)
    refine iff_of_true (by simp [splitLinesLoop, hend]) ?_
    intro pre m post hsplit
    simp at hsplit
  | cons m ms ih =>
    intro fuel i hfuel hdrop
    obtain ⟨fuel, rfl⟩ : ∃ k, fuel = k + 1 := ⟨fuel - 1, by simp at hfuel; omega⟩
    rw [listResponse_cons] at hdrop
    obtain ⟨k, hloop⟩ := m.splitLinesLoop_text hlen hdrop
    have hnext : response.drop (i + (m.text.length + 2)) = listResponse ms := by
      have hsize : m.text.length + 2 = (m.text ++ [13, 10]).length := by simp
      rw [hsize, drop_of_append hdrop]
    rw [contained_cons, ← ih fuel _ (by simpa using hfuel) hnext, hloop]
    constructor
    · intro h
      obtain ⟨⟨line, j⟩, hattach, hrest⟩ := Reply.bind_eq_ok.1 h
      obtain ⟨lines, hlines, hcons⟩ := Reply.map_eq_ok.1 hrest
      obtain ⟨rfl, rfl⟩ := List.cons.inj hcons
      obtain ⟨rfl, hguard⟩ := attachLiterals_iff.1 hattach
      exact ⟨hguard, hlines⟩
    · rintro ⟨hguard, hlines⟩
      rw [attachLiterals_iff.2 ⟨rfl, hguard⟩, Reply.bind_ok]
      dsimp only
      rw [hlines]
      rfl

theorem splitLines_listResponse {ms : List SentMailbox} (hlen : (listResponse ms).length < 2 ^ 63) :
    splitLines (listResponse ms) = .ok (ms.map SentMailbox.text) ↔
      Contained (listResponse ms).length 0 ms := by
  refine splitLinesLoop_iff hlen ms _ 0 ?_ rfl
  have hcount : ms.length ≤ (listResponse ms).length := by
    clear hlen
    induction ms with
    | nil => exact Nat.zero_le _
    | cons m ms ih =>
      rw [listResponse_length, List.length_cons]
      omega
  unfold lineFuel
  omega

theorem line_length_le {ms : List SentMailbox} {m : SentMailbox} (hm : m ∈ ms) :
    m.text.length ≤ (listResponse ms).length := by
  obtain ⟨pre, post, rfl⟩ := List.append_of_mem hm
  rw [listResponse, List.flatMap_append, List.flatMap_cons]
  simp only [List.length_append]
  omega

/-- The lines are read as mailboxes, each with the flag as `parseListLine` finds it. -/
theorem filterMap_text {ms : List SentMailbox} (hlen : (listResponse ms).length < 2 ^ 63) :
    (ms.map SentMailbox.text).filterMap parseListLine =
      ms.map fun m => { m.info with selectable := ¬ m.HasNoselectPrefix } := by
  rw [List.filterMap_map, ← List.filterMap_eq_map]
  refine List.filterMap_congr fun m hm => ?_
  have hshort : m.text.length < 2 ^ 63 := Nat.lt_of_le_of_lt (line_length_le hm) hlen
  rw [Function.comp_apply, Function.comp_apply, m.parseListLine_text hshort]

theorem info_iff (m : SentMailbox) :
    { m.info with selectable := ¬ m.HasNoselectPrefix } = m.info ↔
      (m.HasNoselectPrefix → ∃ a ∈ m.attributes, a.IsNoselect) := by
  have himp : (∃ a ∈ m.attributes, a.IsNoselect) → m.HasNoselectPrefix := by
    rintro ⟨a, ha, hname⟩
    exact ⟨a, ha, hname ▸ List.prefix_rfl⟩
  constructor
  · intro h
    have hflag := congrArg FolderInfo.selectable h
    simp only [SentMailbox.info, decide_eq_decide, not_iff_not] at hflag
    exact hflag.1
  · intro h
    have hiff : m.HasNoselectPrefix ↔ ∃ a ∈ m.attributes, a.IsNoselect := ⟨h, himp⟩
    simp only [SentMailbox.info, hiff]

/-- A listing is read line by line and mailbox by mailbox exactly when no name sent as a literal
ends in a count of octets the response still has, and no attribute merely begins like
`\Noselect`. -/
theorem readsListing_iff (ms : List SentMailbox) (hlen : (listResponse ms).length < 2 ^ 63) :
    ReadsListing ms ↔
      (∀ pre m post, ms = pre ++ m :: post → m.isLiteral = true → ∀ n, EndsInCount m.name n →
        (listResponse ms).length < addSize (listResponse (pre ++ [m])).length n) ∧
      ∀ m ∈ ms, m.HasNoselectPrefix → ∃ a ∈ m.attributes, a.IsNoselect := by
  have hinfo : ms.map (fun m => { m.info with selectable := ¬ m.HasNoselectPrefix }) =
      ms.map SentMailbox.info ↔ ∀ m ∈ ms, m.HasNoselectPrefix → ∃ a ∈ m.attributes, a.IsNoselect := by
    rw [List.map_inj_left]
    exact forall₂_congr fun m _ => info_iff m
  rw [← hinfo, ReadsListing, parseListResponse, ← filterMap_text hlen,
    splitLines_listResponse hlen]
  have hstart : Contained (listResponse ms).length 0 ms ↔
      ∀ pre m post, ms = pre ++ m :: post → m.isLiteral = true → ∀ n, EndsInCount m.name n →
        (listResponse ms).length < addSize (listResponse (pre ++ [m])).length n := by
    simp only [Contained, Nat.zero_add]
  rw [← hstart]
  refine and_congr_right fun hsplit => ?_
  rw [(splitLines_listResponse hlen).2 hsplit, Reply.map_ok, Reply.ok.injEq]

/-- A folder whose name is sent as a literal, and one sent as a quoted string. -/
def sentAndInbox : List SentMailbox :=
  [{  attributes := [{ name := str "HasNoChildren", atom := List.all_eq_true.1 (by decide) }]
      delimiter := some 47
      name := str "Sent \x7b2024"
      isLiteral := true
      name_ne_nil := by decide
      delimiter_plain := by decide +kernel
      name_plain := nofun },
   {  attributes := [{ name := str "NoSelect", atom := List.all_eq_true.1 (by decide) }]
      delimiter := none
      name := str "say \"hi\""
      isLiteral := false
      name_ne_nil := by decide
      delimiter_plain := by decide +kernel
      name_plain := by decide +kernel }]

theorem readsListing_sentAndInbox : ReadsListing sentAndInbox := by
  refine (readsListing_iff sentAndInbox (by decide +kernel)).2 ⟨?_, by decide +kernel⟩
  intro pre m post hsplit _ n hcount
  have hm : m ∈ sentAndInbox := by
    rw [hsplit]
    simp
  have hnone : ∀ m ∈ sentAndInbox, trailingLiteral m.name = none := by decide +kernel
  rw [← trailingLiteral_eq_some_iff, hnone m hm] at hcount
  cases hcount

/-- A folder `x{0}` before the inbox. -/
def countBeforeInbox : List SentMailbox :=
  [{  attributes := []
      delimiter := some 47
      name := str "x\x7b0\x7d"
      isLiteral := true
      name_ne_nil := by decide
      delimiter_plain := by decide +kernel
      name_plain := nofun },
   {  attributes := []
      delimiter := some 47
      name := str "INBOX"
      isLiteral := false
      name_ne_nil := by decide
      delimiter_plain := by decide +kernel
      name_plain := by decide +kernel }]

/-- The inbox is taken for the rest of the first line. -/
theorem inbox_swallowed :
    parseListResponse (listResponse countBeforeInbox) ≠
      .ok (countBeforeInbox.map SentMailbox.info) := by
  decide +kernel

end Imap
end Imap2Pst
