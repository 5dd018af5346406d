import LinearInverse.Proofs.Cfl.Header
import Mathlib.Data.List.DropRight
import Mathlib.Data.List.Forall2

namespace LinearInverse

namespace Text
variable {c : Char} {gap line w rest : List Char} {ws : List (List Char)}

/-- Words in order, blanks between them, and blanks before and behind as there may be. -/
inductive Spaced : List Char → List (List Char) → Prop where
  | blank {gap : List Char} : (∀ c ∈ gap, isBlank c = true) → Spaced gap []
  | word {gap w rest : List Char} {ws : List (List Char)} :
      (∀ c ∈ gap, isBlank c = true) → w ≠ [] → (∀ c ∈ w, isBlank c = false) →
      (∀ c ∈ rest.head?, isBlank c = true) → Spaced rest ws → Spaced (gap ++ (w ++ rest)) (w::ws)

/-- No blank is needed before the first word. -/
theorem Spaced.first {w rest : List Char} {ws : List (List Char)} (hne : w ≠ [])
    (hw : ∀ c ∈ w, isBlank c = false) (hrest : ∀ c ∈ rest.head?, isBlank c = true)
    (htail : Spaced rest ws) : Spaced (w ++ rest) (w::ws) :=
  .word (List.forall_mem_nil _) hne hw hrest htail

theorem words_cons_of_blank (h : isBlank c = true) (line : List Char) :
    words (c::line) = words line := by
  rw [words,splitWhere,if_pos h]
  rfl

theorem words_gap (h : ∀ c ∈ gap, isBlank c = true) (line : List Char) :
    words (gap ++ line) = words line := by
  induction gap with
  | nil => rfl
  | cons c gap ih =>
    rw [List.cons_append,words_cons_of_blank (h c List.mem_cons_self)]
    exact ih fun d hd => h d (List.mem_cons_of_mem c hd)

theorem words_word (hne : w ≠ []) (hw : ∀ c ∈ w, isBlank c = false)
    (hrest : ∀ c ∈ rest.head?, isBlank c = true) : words (w ++ rest) = w :: words rest := by
  have hkept (ts : List (List Char)) :
      (w::ts).filter (!·.isEmpty) = w :: ts.filter (!·.isEmpty) :=
    List.filter_cons_of_pos (by simpa using hne)
  cases rest with
  | nil =>
    rw [List.append_nil,words,splitWhere_eq,List.splitOnP_eq_singleton hw,hkept]
    rfl
  | cons b rest =>
    have hb : isBlank b = true := hrest b rfl
    rw [words,splitWhere_eq,List.splitOnP_append_cons_of_forall_mem hw b hb,hkept,
      words_cons_of_blank hb,words,splitWhere_eq]

theorem Spaced.words_eq (h : Spaced line ws) : words line = ws := by
  induction h with
  | @blank gap hgap =>
    rw [← List.append_nil gap,words_gap hgap]
    rfl
  | word hgap hne hw hrest _ ih => rw [words_gap hgap,words_word hne hw hrest,ih]

/-- A blank in front is a gap, and anything else begins a word or makes the first one longer. -/
theorem exists_spaced (line : List Char) : ∃ ws, Spaced line ws := by
  induction line with
  | nil => exact ⟨[],.blank nofun⟩
  | cons c line ih =>
    obtain ⟨ws,h⟩ := ih
    have hone : ∀ d ∈ [c], isBlank d = isBlank c := fun d hd => by rw [List.mem_singleton.mp hd]
    cases hc : isBlank c with
    | true =>
      cases h with
      | blank hgap => exact ⟨[],.blank (List.forall_mem_cons.mpr ⟨hc,hgap⟩)⟩
      | word hgap hne hw hrest htail =>
        exact ⟨_,.word (List.forall_mem_cons.mpr ⟨hc,hgap⟩) hne hw hrest htail⟩
    | false =>
      simp only [hc] at hone
      cases h with
      | blank hgap =>
        refine ⟨[[c]],.first (List.cons_ne_nil c []) hone ?_ (.blank hgap)⟩
        exact fun d hd => hgap d (List.mem_of_mem_head? hd)
      | @word gap w rest ws hgap hne hw hrest htail =>
        cases gap with
        | nil =>
          exact ⟨(c::w)::ws,.first (List.cons_ne_nil c w) (List.forall_mem_cons.mpr ⟨hc,hw⟩) hrest
            htail⟩
        | cons b gap =>
          refine ⟨[c]::w::ws,.first (List.cons_ne_nil c []) hone ?_
            (.word hgap hne hw hrest htail)⟩
          rintro _ ⟨⟩
          exact hgap b List.mem_cons_self

theorem words_eq_iff : words line = ws ↔ Spaced line ws := by
  refine ⟨fun h => ?_,Spaced.words_eq⟩
  obtain ⟨ws',h'⟩ := exists_spaced line
  rwa [← h,h'.words_eq]

/-- A line without the blanks at its ends. -/
def trimmed (line : List Char) : List Char :=
  (line.dropWhile isBlank).rdropWhile isBlank

theorem trimmed_cons_of_blank (h : isBlank c = true) (line : List Char) :
    trimmed (c::line) = trimmed line := by
  rw [trimmed,List.dropWhile_cons_of_pos h,trimmed]

/-- The first character that is not blank stays at the front. -/
theorem exists_trimmed_cons (h : isBlank c = false) (line : List Char) :
    ∃ cs, trimmed (c::line) = c :: cs := by
  have hdrop : (c::line).dropWhile isBlank = c :: line :=
    List.dropWhile_cons_of_neg (by rw [h]; exact Bool.false_ne_true)
  have hprefix : trimmed (c::line) <+: c :: line := by
    rw [trimmed,hdrop]
    exact List.rdropWhile_prefix isBlank _
  cases htrim : trimmed (c::line) with
  | nil =>
    rw [trimmed,hdrop,List.rdropWhile_eq_nil_iff] at htrim
    rw [htrim c List.mem_cons_self] at h
    cases h
  | cons d ds =>
    rw [htrim] at hprefix
    exact ⟨ds,by rw [(List.cons_prefix_cons.mp hprefix).1]⟩

theorem exists_words_cons (h : isBlank c = false) (line : List Char) :
    ∃ w ws, words (c::line) = (c::w) :: ws := by
  obtain ⟨ws,hws⟩ := exists_spaced (c::line)
  rw [hws.words_eq]
  generalize hall : c :: line = all at hws
  cases hws with
  | blank hgap =>
    subst hall
    rw [hgap c List.mem_cons_self] at h
    cases h
  | @word gap w rest ws hgap hne =>
    cases gap with
    | nil =>
      cases w with
      | nil => exact absurd rfl hne
      | cons d w =>
        cases hall
        exact ⟨w,ws,rfl⟩
    | cons b gap =>
      cases hall
      rw [hgap c List.mem_cons_self] at h
      cases h

end Text

namespace Cfl.Header
open Text

variable {text line : List Char} {token : List Char} {tokens : List (List Char)}
  {dims sizes : List Nat} {n : Nat}

/-- There is nothing on the line, or it is a comment. -/
def Skipped (line : List Char) : Prop :=
  trimmed line = [] ∨ (trimmed line).head? = some '#'

theorem isSizes_words (line : List Char) : isSizes (words line) = true ↔ ¬Skipped line := by
  induction line with
  | nil => exact iff_of_false Bool.false_ne_true (not_not_intro (.inl rfl))
  | cons c line ih =>
    cases hc : isBlank c with
    | true => rwa [words_cons_of_blank hc,Skipped,trimmed_cons_of_blank hc]
    | false =>
      obtain ⟨w,ws,hwords⟩ := exists_words_cons hc line
      obtain ⟨cs,htrim⟩ := exists_trimmed_cons hc line
      rw [hwords,Skipped,htrim]
      simp [isSizes]

/-- The first line of a text that is not skipped. -/
inductive FirstLine : List Char → List Char → Prop where
  | last {line : List Char} : '\n' ∉ line → ¬Skipped line → FirstLine line line
  | here {line rest : List Char} : '\n' ∉ line → ¬Skipped line →
      FirstLine (line ++ '\n'::rest) line
  | later {skipped text line : List Char} : '\n' ∉ skipped → Skipped skipped →
      FirstLine text line → FirstLine (skipped ++ '\n'::text) line

theorem beq_newline_of_not_mem (h : '\n' ∉ line) : ∀ c ∈ line, (c == '\n') = false := by
  intro c hc
  rw [beq_eq_false_iff_ne]
  rintro rfl
  exact h hc

theorem lines_of_not_mem (h : '\n' ∉ line) : lines line = [line] := by
  rw [lines,splitWhere_eq]
  exact List.splitOnP_eq_singleton (beq_newline_of_not_mem h)

theorem lines_append (h : '\n' ∉ line) (rest : List Char) :
    lines (line ++ '\n'::rest) = line :: lines rest := by
  rw [lines,splitWhere_eq,
    List.splitOnP_append_cons_of_forall_mem (beq_newline_of_not_mem h) '\n' rfl,lines,splitWhere_eq]

theorem find?_words_cons (lines : List (List Char)) :
    ((line::lines).map words).find? isSizes =
      if isSizes (words line) then some (words line) else (lines.map words).find? isSizes := by
  rw [List.map_cons,List.find?_cons]
  cases isSizes (words line) <;> rfl

theorem FirstLine.find?_words (h : FirstLine text line) :
    ((lines text).map words).find? isSizes = some (words line) := by
  induction h with
  | last hline hskip =>
    rw [lines_of_not_mem hline,find?_words_cons,if_pos ((isSizes_words _).mpr hskip)]
  | here hline hskip =>
    rw [lines_append hline,find?_words_cons,if_pos ((isSizes_words _).mpr hskip)]
  | later hline hskip _ ih =>
    rw [lines_append hline,find?_words_cons,
      if_neg fun hsizes => (isSizes_words _).mp hsizes hskip,ih]

/-- Line by line, down to the last one. -/
theorem firstLine_or_none (text : List Char) :
    (∃ line, FirstLine text line) ∨ ((lines text).map words).find? isSizes = none := by
  by_cases hbreak : '\n' ∈ text
  · obtain ⟨line,rest,htext,hline⟩ := List.eq_append_cons_of_mem hbreak
    have hlt : rest.length < text.length := by
      rw [htext,List.length_append,List.length_cons]
      omega
    subst htext
    by_cases hskip : Skipped line
    · rw [lines_append hline,find?_words_cons,
        if_neg fun hsizes => (isSizes_words _).mp hsizes hskip]
      refine (firstLine_or_none rest).imp_left ?_
      rintro ⟨first,hfirst⟩
      exact ⟨first,.later hline hskip hfirst⟩
    · exact .inl ⟨line,.here hline hskip⟩
  · by_cases hskip : Skipped text
    · refine .inr ?_
      rw [lines_of_not_mem hbreak,find?_words_cons,
        if_neg fun hsizes => (isSizes_words _).mp hsizes hskip]
      rfl
    · exact .inl ⟨text,.last hbreak hskip⟩
termination_by text.length

theorem FirstLine.not_skipped (h : FirstLine text line) : ¬Skipped line := by
  induction h with
  | last _ hskip => exact hskip
  | here _ hskip => exact hskip
  | later _ _ _ ih => exact ih

theorem FirstLine.read_eq (h : FirstLine text line) :
    read text = ((words line).mapM size).map trim := by
  rw [read,h.find?_words]

theorem read_eq_noSizes (h : ¬∃ line, FirstLine text line) : read text = .error .noSizes := by
  rw [read,(firstLine_or_none text).resolve_left h]

/-- Decimal digits, which a plus sign may precede, with a value below the bound of the words. -/
def Numeral (token : List Char) (n : Nat) : Prop :=
  ∃ digits : List Char, (token = digits ∨ token = '+'::digits) ∧ digits ≠ [] ∧
    (∀ c ∈ digits, c.isDigit = true) ∧ Nat.ofDigitChars 10 digits 0 = n ∧ n < Grid.wordBound

theorem push_eq_ok_iff {name : String} {c : Char} {m : Nat} : push name n c = .ok m ↔
    c.isDigit = true ∧ n * 10 + (c.toNat - '0'.toNat) = m ∧ m < Grid.wordBound := by
  unfold push
  cases c.isDigit with
  | false => simp
  | true =>
    by_cases hlt : n * 10 + (c.toNat - '0'.toNat) < Grid.wordBound
    · simp only [Bool.not_true,Bool.false_eq_true,if_false,hlt,if_true,Except.ok.injEq,true_and]
      exact ⟨fun h => ⟨h,h ▸ hlt⟩,And.left⟩
    · simp only [Bool.not_true,Bool.false_eq_true,if_false,hlt,reduceCtorEq,true_and,false_iff]
      rintro ⟨rfl,h⟩
      exact hlt h

theorem foldlM_push_eq_ok_iff {name : String} {cs : List Char} {m : Nat}
    (hn : n < Grid.wordBound) : cs.foldlM (push name) n = .ok m ↔
      (∀ c ∈ cs, c.isDigit = true) ∧ Nat.ofDigitChars 10 cs n = m ∧ m < Grid.wordBound := by
  refine ⟨fun h => ?_,?_⟩
  · induction cs generalizing n with
    | nil =>
      cases h
      exact ⟨nofun,rfl,hn⟩
    | cons c cs ih =>
      rw [List.foldlM_cons] at h
      cases hpush : push name n c with
      | error f =>
        rw [hpush] at h
        cases h
      | ok k =>
        rw [hpush] at h
        obtain ⟨hc,rfl,hk⟩ := push_eq_ok_iff.mp hpush
        obtain ⟨hcs,hvalue,hm⟩ := ih hk h
        refine ⟨List.forall_mem_cons.mpr ⟨hc,hcs⟩,?_,hm⟩
        rwa [Nat.ofDigitChars_cons,Nat.mul_comm 10 n]
  · rintro ⟨hcs,rfl,hm⟩
    exact foldlM_push hcs hm

/-- A plus sign is no digit, so there is one way to take it. -/
theorem size_eq_ok_iff : size token = .ok n ↔ Numeral token n := by
  have hvalue (digits : List Char) : (if digits.isEmpty then
      .error (.notDecimal (String.ofList token))
      else digits.foldlM (push (String.ofList token)) 0) = .ok n ↔ digits ≠ [] ∧
        (∀ c ∈ digits, c.isDigit = true) ∧ Nat.ofDigitChars 10 digits 0 = n ∧
          n < Grid.wordBound := by
    cases digits with
    | nil => simp
    | cons c cs =>
      rw [if_neg (by simp),foldlM_push_eq_ok_iff (by decide)]
      exact (and_iff_right (List.cons_ne_nil c cs)).symm
  unfold size
  split
  next cs =>
    rw [hvalue]
    constructor
    · exact fun h => ⟨cs,.inr rfl,h⟩
    · rintro ⟨digits,heq | heq,h⟩
      · subst heq
        exact absurd (h.2.1 '+' List.mem_cons_self) (by decide)
      · cases heq
        exact h
  next hplus =>
    rw [hvalue]
    constructor
    · exact fun h => ⟨token,.inl rfl,h⟩
    · rintro ⟨digits,heq | heq,h⟩
      · rwa [heq]
      · exact absurd heq (hplus digits)

theorem mapM_size_eq_ok_iff :
    tokens.mapM size = .ok sizes ↔ List.Forall₂ Numeral tokens sizes := by
  induction tokens generalizing sizes with
  | nil => cases sizes <;> simp [pure,Except.pure]
  | cons t ts ih =>
    rw [List.mapM_cons,List.forall₂_cons_left_iff]
    simp only [← size_eq_ok_iff,← ih]
    cases size t with
    | error f => simp [bind,Except.bind]
    | ok m => cases ts.mapM size <;> simp [bind,Except.bind,pure,Except.pure,eq_comm]

theorem exists_mapM_size_eq_error_iff :
    (∃ f, tokens.mapM size = .error f) ↔ ∃ token ∈ tokens, ¬∃ n, Numeral token n := by
  induction tokens with
  | nil => simp [pure,Except.pure]
  | cons t ts ih =>
    rw [List.mapM_cons,List.exists_mem_cons_iff,← ih]
    simp only [← size_eq_ok_iff]
    cases size t with
    | error f => simp [bind,Except.bind]
    | ok m => cases ts.mapM size <;> simp [bind,Except.bind,pure,Except.pure]

/-- The sizes on the first line that is not skipped, without those at the end that say nothing. -/
def Says (text : List Char) (dims : List Nat) : Prop :=
  ∃ line tokens sizes, FirstLine text line ∧ Spaced line tokens ∧
    List.Forall₂ Numeral tokens sizes ∧ Least dims ∧ ∃ n, sizes = dims ++ List.replicate n 1

/-- There is no line that counts, or a word on it is no numeral. -/
def Malformed (text : List Char) : Prop :=
  (¬∃ line, FirstLine text line) ∨ ∃ line tokens token, FirstLine text line ∧
    Spaced line tokens ∧ token ∈ tokens ∧ ¬∃ n, Numeral token n

theorem eq_trim_iff (h : sizes ≠ []) :
    trim sizes = dims ↔ Least dims ∧ ∃ n, sizes = dims ++ List.replicate n 1 := by
  obtain ⟨hleast,n,hn⟩ := exists_trim h
  constructor
  · rintro rfl
    exact ⟨hleast,n,hn⟩
  · rintro ⟨hdims,m,hm⟩
    -- the shorter one of the two could still be trimmed
    rcases Nat.le_total m n with hle | hle
    · refine (hdims.eq hleast.1 (n := n - m) ?_).symm
      refine (List.append_left_inj (List.replicate m 1)).mp ?_
      rw [← hm,List.append_assoc,List.replicate_append_replicate,Nat.sub_add_cancel hle,← hn]
    · refine hleast.eq hdims.1 (n := m - n) ?_
      refine (List.append_left_inj (List.replicate n 1)).mp ?_
      rw [← hn,List.append_assoc,List.replicate_append_replicate,Nat.sub_add_cancel hle,← hm]

theorem FirstLine.unique {line' : List Char} (h : FirstLine text line)
    (h' : FirstLine text line') : words line = words line' :=
  Option.some.inj (h.find?_words.symm.trans h'.find?_words)

theorem read_eq_ok_iff : read text = .ok dims ↔ Says text dims := by
  by_cases hline : ∃ line, FirstLine text line
  · obtain ⟨line,hline⟩ := hline
    rw [hline.read_eq]
    constructor
    · intro h
      cases hsizes : (words line).mapM size with
      | error f =>
        rw [hsizes] at h
        cases h
      | ok sizes =>
        rw [hsizes] at h
        have hne : sizes ≠ [] := by
          rintro rfl
          exact mapM_size_ne_nil ((isSizes_words line).mpr hline.not_skipped) hsizes
        exact ⟨line,words line,sizes,hline,words_eq_iff.mp rfl,mapM_size_eq_ok_iff.mp hsizes,
          (eq_trim_iff hne).mp (Except.ok.inj h)⟩
    · rintro ⟨line',tokens,sizes,hline',hwords,hsizes,hdims⟩
      have hne : sizes ≠ [] := by
        rintro rfl
        obtain ⟨n,hn⟩ := hdims.2
        exact hdims.1.1 (List.append_eq_nil_iff.mp hn.symm).1
      rw [hline.unique hline',words_eq_iff.mpr hwords,mapM_size_eq_ok_iff.mpr hsizes]
      exact congrArg Except.ok ((eq_trim_iff hne).mpr hdims)
  · rw [read_eq_noSizes hline]
    refine iff_of_false nofun ?_
    rintro ⟨line,tokens,sizes,h,_⟩
    exact hline ⟨line,h⟩

theorem exists_read_eq_error_iff : (∃ f, read text = .error f) ↔ Malformed text := by
  by_cases hline : ∃ line, FirstLine text line
  · obtain ⟨line,hline⟩ := hline
    have hfault : (∃ f, read text = .error f) ↔ ∃ token ∈ words line, ¬∃ n, Numeral token n := by
      rw [hline.read_eq,← exists_mapM_size_eq_error_iff]
      cases (words line).mapM size <;> simp [Except.map]
    rw [hfault]
    constructor
    · rintro ⟨token,htoken,hnone⟩
      exact .inr ⟨line,words line,token,hline,words_eq_iff.mp rfl,htoken,hnone⟩
    · rintro (hno | ⟨line',tokens,token,hline',hwords,htoken,hnone⟩)
      · exact absurd ⟨line,hline⟩ hno
      · rw [hline.unique hline',words_eq_iff.mpr hwords]
        exact ⟨token,htoken,hnone⟩
  · exact iff_of_true ⟨.noSizes,read_eq_noSizes hline⟩ (.inl hline)

end Cfl.Header

end LinearInverse
