/-
**Chunks of a document.**

A document is cut at its blank lines, a paragraph that is too long at its white space and a word
that is too long anywhere, and the pieces are joined again as far as they fit. The ink of a text is
what is not white space: the chunks have the ink of the document (`chunk_sound`), each has some, and
none is longer than asked. A paragraph that opens with the source marker begins a chunk, whatever
stands before it.
-/

import DrStrange.Lib.Utf8

namespace DrStrange.Llm

open Lib

/-! ### The code -/

/-- The texts between blank lines. -/
def splitBlank : List Char → List (List Char)
  | a :: b :: text =>
    if a = '\n' ∧ b = '\n' then [] :: splitBlank text
    else (splitBlank (b :: text)).modifyHead (a :: ·)
  | [a] => [[a]]
  | [] => [[]]

/-- The paragraphs of a document, without the white space around them. -/
def paragraphs (doc : List Char) : List (List Char) := ((splitBlank doc).map trim).filter (· ≠ [])

/-- The words of a text. -/
def splitWhitespace (text : List Char) : List (List Char) :=
  (text.splitOnP whiteSpace).filter (· ≠ [])

/-- The pieces that are done, and the one that grows. -/
structure Filling where
  pieces : List (List Char)
  cur : List Char

def Filling.empty : Filling := ⟨[], []⟩

/-- `push(take(&mut cur))`. -/
def Filling.push (filling : Filling) : Filling := ⟨filling.pieces ++ [filling.cur], []⟩

/-- A part behind the piece that grows. -/
def Filling.join (filling : Filling) (separator part : List Char) : Filling :=
  ⟨filling.pieces, if filling.cur ≠ [] then filling.cur ++ separator ++ part else part⟩

def Filling.finish (filling : Filling) : List (List Char) :=
  if filling.cur ≠ [] then filling.push.pieces else filling.pieces

/-- A character of a word that is longer than a piece. -/
def pushChar (size : ℕ) (filling : Filling) (c : Char) : Filling :=
  let filling := if size ≤ filling.cur.length then filling.push else filling
  ⟨filling.pieces, filling.cur ++ [c]⟩

def pushWord (size : ℕ) (filling : Filling) (word : List Char) : Filling :=
  if size < word.length then
    word.foldl (pushChar size) (if filling.cur ≠ [] then filling.push else filling)
  else
    (if filling.cur ≠ [] ∧ size < filling.cur.length + 1 + word.length then filling.push
      else filling).join [' '] word

/-- The pieces of a paragraph, of at most `size` characters. -/
def splitParagraph (para : List Char) (size : ℕ) : List (List Char) :=
  if para.length ≤ size then [para] else ((splitWhitespace para).foldl (pushWord size) .empty).finish

/-- Opens a paragraph that names the source of the text after it. -/
def sourceMarker : List Char := "<!-- drsg:source".toList

/-- A piece behind a chunk, or in a new one; lengths are counted in bytes. -/
def pushPiece (size : ℕ) (filling : Filling) (piece : List Char) : Filling :=
  (if filling.cur ≠ [] ∧ size < (bytes filling.cur).length + (bytes piece).length + 2 then
    filling.push
    else filling).join ['\n', '\n'] piece

def pushParagraph (size : ℕ) (filling : Filling) (para : List Char) : Filling :=
  (splitParagraph para size).foldl (pushPiece size)
    (if sourceMarker <+: para ∧ filling.cur ≠ [] then filling.push else filling)

/-- The chunks of paragraphs. -/
def chunkParagraphs (size : ℕ) (paras : List (List Char)) : List (List Char) :=
  (paras.foldl (pushParagraph size) .empty).finish

/-- The chunks of a document, of about `size` characters. -/
def chunk (doc : List Char) (size : ℕ) : List (List Char) :=
  chunkParagraphs (max size 200) (paragraphs doc)

/-! ### Ink -/

/-- What a text shows: the characters that are not white space. -/
def ink (text : List Char) : List Char := text.filter fun c => !whiteSpace c

variable {size : ℕ} {text text' separator part word piece para doc : List Char}
  {filling : Filling} {c : Char}
  {parts paras : List (List Char)}

@[simp] theorem ink_nil : ink [] = [] := rfl

@[simp] theorem ink_append : ink (text ++ text') = ink text ++ ink text' := List.filter_append _ _

theorem ink_cons_of_blank (blank : whiteSpace c = true) : ink (c :: text) = ink text := by
  simp [ink, blank]

theorem ink_cons : ink (c :: text) = ink [c] ++ ink text :=
  List.filter_append [c] text

theorem ink_eq_nil : ink text = [] ↔ ∀ c ∈ text, whiteSpace c = true := by
  simp [ink, List.filter_eq_nil_iff]

theorem ink_eq_self (dark : ∀ c ∈ text, whiteSpace c = false) : ink text = text := by
  refine List.filter_eq_self.mpr fun c member => ?_
  rw [dark c member, Bool.not_false]

theorem ink_dropWhile : ink (text.dropWhile whiteSpace) = ink text := by
  induction text with
  | nil => rfl
  | cons c text ih =>
    rw [List.dropWhile_cons]
    split_ifs with blank
    · rw [ih, ink_cons_of_blank blank]
    · rfl

theorem ink_reverse : ink text.reverse = (ink text).reverse := List.filter_reverse

theorem ink_trim : ink (trim text) = ink text := by
  rw [trim, List.rdropWhile, ink_reverse, ink_dropWhile, ink_reverse, List.reverse_reverse,
    ink_dropWhile]

/-- A text that is not all white space keeps something when it is trimmed, and only such a text. -/
theorem trim_eq_nil (blank : ink text = []) : trim text = [] := by
  rw [trim, List.dropWhile_eq_nil_iff.mpr (ink_eq_nil.mp blank)]
  rfl

theorem flatten_modifyHead {α : Type} {a : α} {lists : List (List α)} (inhabited : lists ≠ []) :
    (lists.modifyHead (a :: ·)).flatten = a :: lists.flatten := by
  cases lists with
  | nil => exact absurd rfl inhabited
  | cons first lists => rfl

theorem splitBlank_ne_nil (text : List Char) : splitBlank text ≠ [] := by
  fun_induction splitBlank text <;> simp_all

theorem ink_splitBlank (doc : List Char) : ink (splitBlank doc).flatten = ink doc := by
  fun_induction splitBlank doc with
  | case1 a b text blank ih =>
    obtain ⟨rfl, rfl⟩ := blank
    rw [List.flatten_cons, List.nil_append, ih, ink_cons_of_blank (by decide),
      ink_cons_of_blank (by decide)]
  | case2 a b text dark ih =>
    rw [flatten_modifyHead (splitBlank_ne_nil _), ink_cons, ih, ← ink_cons]
  | case3 a => rfl
  | case4 => rfl

/-- Only parts without ink are left out. -/
theorem ink_flatten_filter : ink (parts.filter (· ≠ [])).flatten = ink parts.flatten := by
  induction parts with
  | nil => rfl
  | cons part parts ih =>
    rw [List.filter_cons]
    split_ifs with shown
    · rw [List.flatten_cons, List.flatten_cons, ink_append, ink_append, ih]
    · obtain rfl : part = [] := by simpa using shown
      rw [ih]
      rfl

theorem ink_flatten_map_trim : ink (parts.map trim).flatten = ink parts.flatten := by
  induction parts with
  | nil => rfl
  | cons part parts ih =>
    rw [List.map_cons, List.flatten_cons, List.flatten_cons, ink_append, ink_append, ink_trim, ih]

theorem ink_paragraphs (doc : List Char) : ink (paragraphs doc).flatten = ink doc := by
  rw [paragraphs, ink_flatten_filter, ink_flatten_map_trim, ink_splitBlank]

theorem ink_paragraph (among : para ∈ paragraphs doc) : ink para ≠ [] := by
  obtain ⟨among, shown⟩ := List.mem_filter.mp among
  obtain ⟨part, -, rfl⟩ := List.mem_map.mp among
  rw [ink_trim]
  exact fun blank => of_decide_eq_true shown (trim_eq_nil blank)

theorem ink_splitWhitespace (text : List Char) : ink (splitWhitespace text).flatten = ink text := by
  rw [splitWhitespace, ink_flatten_filter]
  induction text with
  | nil => rfl
  | cons c text ih =>
    rw [List.splitOnP_cons_eq_if_modifyHead]
    split_ifs with blank
    · rw [List.flatten_cons, List.nil_append, ih, ink_cons_of_blank blank]
    · rw [flatten_modifyHead (List.splitOnP_ne_nil _ _), ink_cons, ih, ← ink_cons]

theorem dark_splitOnP (among : word ∈ text.splitOnP whiteSpace) :
    ∀ c ∈ word, whiteSpace c = false := by
  induction text generalizing word with
  | nil =>
    obtain rfl : word = [] := by simpa using among
    exact nofun
  | cons c text ih =>
    rw [List.splitOnP_cons_eq_if_modifyHead] at among
    split_ifs at among with blank
    · obtain rfl | among := List.mem_cons.mp among
      · exact nofun
      · exact ih among
    · cases cut : text.splitOnP whiteSpace with
      | nil => exact absurd cut (List.splitOnP_ne_nil _ _)
      | cons first rest =>
        rw [cut, List.modifyHead_cons] at among
        rw [cut] at ih
        obtain rfl | among := List.mem_cons.mp among
        · exact List.forall_mem_cons.mpr ⟨by simpa using blank, ih List.mem_cons_self⟩
        · exact ih (List.mem_cons_of_mem _ among)

/-- A word is not empty, and shows all of its characters. -/
theorem dark_word (among : word ∈ splitWhitespace text) :
    word ≠ [] ∧ ∀ c ∈ word, whiteSpace c = false := by
  obtain ⟨among, shown⟩ := List.mem_filter.mp among
  exact ⟨of_decide_eq_true shown, dark_splitOnP among⟩

/-! ### Filling pieces -/

/-- A piece that shows something and fits. -/
structure Piece (size : ℕ) (piece : List Char) : Prop where
  fits : piece.length ≤ size
  shown : ink piece ≠ []

/-- What a filling holds: pieces, with the ink of what has been read. -/
structure Filling.Holds (size : ℕ) (filling : Filling) (read : List Char) : Prop where
  ink : ink (filling.pieces.flatten ++ filling.cur) = read
  pieces : ∀ piece ∈ filling.pieces, Piece size piece
  cur : filling.cur ≠ [] → Piece size filling.cur

variable {read : List Char} {full : Prop}

theorem holds_empty (size : ℕ) : Filling.empty.Holds size [] := ⟨rfl, nofun, nofun⟩

theorem Filling.Holds.push (holds : filling.Holds size read) (growing : filling.cur ≠ []) :
    filling.push.Holds size read := by
  refine ⟨?_, fun piece among => ?_, fun growing => absurd rfl growing⟩
  · rw [← holds.ink, Filling.push, List.flatten_append, List.flatten_singleton, List.append_nil]
  · obtain among | among := List.mem_append.mp among
    · exact holds.pieces piece among
    · obtain rfl := List.mem_singleton.mp among
      exact holds.cur growing

/-- A filling that is pushed where a condition asks for it, which it only does when a piece grows. -/
theorem Filling.Holds.pushIf [Decidable full] (holds : filling.Holds size read)
    (growing : full → filling.cur ≠ []) :
    (if full then filling.push else filling).Holds size read := by
  split_ifs with asked
  · exact holds.push (growing asked)
  · exact holds

theorem Filling.Holds.join (holds : filling.Holds size read) (blank : Llm.ink separator = [])
    (shown : Llm.ink part ≠ []) (fits : (filling.join separator part).cur.length ≤ size) :
    (filling.join separator part).Holds size (read ++ Llm.ink part) := by
  have appended : Llm.ink (filling.join separator part).cur =
      Llm.ink filling.cur ++ Llm.ink part := by
    rw [Filling.join]
    split_ifs with growing
    · rw [ink_append, ink_append, blank, List.append_nil]
    · rw [not_not.mp growing, ink_nil, List.nil_append]
  refine ⟨?_, holds.pieces, fun _ => ⟨fits, ?_⟩⟩
  · rw [← holds.ink, ink_append, ink_append, appended, List.append_assoc]
    rfl
  · rw [appended]
    exact fun nothing => shown (List.append_eq_nil_iff.mp nothing).2

theorem Filling.Holds.finish (holds : filling.Holds size read) :
    Llm.ink filling.finish.flatten = read ∧ ∀ piece ∈ filling.finish, Piece size piece := by
  rw [Filling.finish]
  split_ifs with growing
  · have pushed := holds.push growing
    exact ⟨by rw [← pushed.ink, Filling.push, List.append_nil], pushed.pieces⟩
  · exact ⟨by rw [← holds.ink, not_not.mp growing, List.append_nil], holds.pieces⟩

/-- What each part adds, all of them add. -/
theorem holds_foldl {add : Filling → List Char → Filling}
    (each : ∀ part ∈ parts, ∀ (filling : Filling) read, filling.Holds size read →
      (add filling part).Holds size (read ++ ink part)) (holds : filling.Holds size read) :
    (parts.foldl add filling).Holds size (read ++ ink parts.flatten) := by
  induction parts generalizing filling read with
  | nil => rwa [List.flatten_nil, ink_nil, List.append_nil]
  | cons part parts ih =>
    obtain ⟨here, each⟩ := List.forall_mem_cons.mp each
    rw [List.flatten_cons, ink_append, ← List.append_assoc]
    exact ih each (here filling read holds)

/-! ### Splitting -/

theorem holds_pushChar (positive : 0 < size) (dark : whiteSpace c = false)
    (holds : filling.Holds size read) : (pushChar size filling c).Holds size (read ++ [c]) := by
  have shown : ink [c] = [c] := ink_eq_self fun d among => List.mem_singleton.mp among ▸ dark
  have pushed : (if size ≤ filling.cur.length then filling.push else filling).Holds size read :=
    holds.pushIf fun full empty => by
      rw [empty, List.length_nil] at full
      omega
  have room : (if size ≤ filling.cur.length then filling.push else filling).cur.length < size := by
    split_ifs with full
    · exact positive
    · exact Nat.lt_of_not_le full
  rw [pushChar]
  refine ⟨?_, pushed.pieces, fun _ => ⟨?_, ?_⟩⟩
  · rw [← List.append_assoc, ink_append, pushed.ink, shown]
  · rw [List.length_append, List.length_singleton]
    exact room
  · rw [ink_append, shown]
    exact List.append_ne_nil_of_right_ne_nil _ (List.cons_ne_nil _ _)

theorem holds_pushChars (positive : 0 < size) (dark : ∀ c ∈ word, whiteSpace c = false)
    (holds : filling.Holds size read) :
    (word.foldl (pushChar size) filling).Holds size (read ++ word) := by
  induction word generalizing filling read with
  | nil => rwa [List.append_nil]
  | cons c word ih =>
    obtain ⟨here, dark⟩ := List.forall_mem_cons.mp dark
    rw [List.append_cons]
    exact ih dark (holds_pushChar positive here holds)

theorem holds_pushWord (positive : 0 < size) (inhabited : word ≠ [])
    (dark : ∀ c ∈ word, whiteSpace c = false) (holds : filling.Holds size read) :
    (pushWord size filling word).Holds size (read ++ ink word) := by
  have shown := ink_eq_self dark
  rw [pushWord]
  by_cases long : size < word.length
  · rw [if_pos long, shown]
    exact holds_pushChars positive dark (holds.pushIf id)
  · rw [if_neg long]
    refine (holds.pushIf And.left).join rfl (by rwa [shown]) ?_
    rw [Filling.join]
    split_ifs with full growing growing
    · exact absurd rfl growing
    · exact Nat.le_of_not_lt long
    · rw [List.length_append, List.length_append, List.length_singleton]
      exact Nat.le_of_not_lt fun more => full ⟨growing, more⟩
    · exact Nat.le_of_not_lt long

/-- **The pieces of a paragraph** have its ink, and each is a piece. -/
theorem splitParagraph_sound (positive : 0 < size) (shown : ink para ≠ []) :
    ink (splitParagraph para size).flatten = ink para ∧
    ∀ piece ∈ splitParagraph para size, Piece size piece := by
  rw [splitParagraph]
  split_ifs with fits
  · refine ⟨by rw [List.flatten_singleton], fun piece among => ?_⟩
    obtain rfl := List.mem_singleton.mp among
    exact ⟨fits, shown⟩
  · have held : ((splitWhitespace para).foldl (pushWord size) .empty).Holds size
        ([] ++ ink (splitWhitespace para).flatten) :=
      holds_foldl (fun word among filling read holds =>
        holds_pushWord positive (dark_word among).1 (dark_word among).2 holds) (holds_empty size)
    rw [List.nil_append, ink_splitWhitespace] at held
    exact held.finish

theorem holds_pushPiece (is : Piece size piece) (holds : filling.Holds size read) :
    (pushPiece size filling piece).Holds size (read ++ ink piece) := by
  rw [pushPiece]
  refine (holds.pushIf And.left).join rfl is.shown ?_
  rw [Filling.join]
  split_ifs with full growing growing
  · exact absurd rfl growing
  · exact is.fits
  · have fits : (bytes filling.cur).length + (bytes piece).length + 2 ≤ size :=
      Nat.le_of_not_lt fun more => full ⟨growing, more⟩
    have left := length_le_bytes filling.cur
    have right := length_le_bytes piece
    rw [List.length_append, List.length_append, List.length_cons, List.length_singleton]
    omega
  · exact is.fits

theorem holds_pushParagraph (positive : 0 < size) (shown : ink para ≠ [])
    (holds : filling.Holds size read) :
    (pushParagraph size filling para).Holds size (read ++ ink para) := by
  obtain ⟨kept, pieces⟩ := splitParagraph_sound positive shown
  rw [pushParagraph, ← kept]
  exact holds_foldl (fun piece among filling read holds => holds_pushPiece (pieces piece among) holds)
    (holds.pushIf And.right)

/-- **Chunks of paragraphs** have their ink, and each is a piece. -/
theorem chunkParagraphs_sound (positive : 0 < size) (shown : ∀ para ∈ paras, ink para ≠ []) :
    ink (chunkParagraphs size paras).flatten = ink paras.flatten ∧
      ∀ piece ∈ chunkParagraphs size paras, Piece size piece := by
  have held : (paras.foldl (pushParagraph size) .empty).Holds size ([] ++ ink paras.flatten) :=
    holds_foldl (fun para among filling read holds =>
      holds_pushParagraph positive (shown para among) holds)
      (holds_empty size)
  rw [List.nil_append] at held
  exact held.finish

/-- **The chunks of a document** have its ink, and each is a piece. -/
theorem chunk_pieces (doc : List Char) (size : ℕ) : ink (chunk doc size).flatten = ink doc ∧
    ∀ piece ∈ chunk doc size, Piece (max size 200) piece := by
  rw [← ink_paragraphs doc]
  exact chunkParagraphs_sound (by omega) fun para => ink_paragraph

/-! ### Where chunks begin -/

/-- A filling with pieces that were done before it. -/
def Filling.after (filling : Filling) (before : List (List Char)) : Filling :=
  ⟨before ++ filling.pieces, filling.cur⟩

@[simp] theorem Filling.cur_after {before : List (List Char)} :
    (filling.after before).cur = filling.cur := rfl

theorem Filling.pushIf_after [Decidable full] {before : List (List Char)} :
    (if full then (filling.after before).push else filling.after before) =
      (if full then filling.push else filling).after before := by
  split_ifs
  · rw [push, push, after, after, List.append_assoc]
  · rfl

theorem Filling.finish_after {before : List (List Char)} :
    (filling.after before).finish = before ++ filling.finish := by
  rw [finish, finish, cur_after]
  split_ifs
  · rw [push, push, after, List.append_assoc]
  · rfl

theorem pushPiece_after {before : List (List Char)} :
    pushPiece size (filling.after before) piece = (pushPiece size filling piece).after before := by
  rw [pushPiece, pushPiece, Filling.cur_after, Filling.pushIf_after]
  rfl

theorem foldl_after {add : Filling → List Char → Filling} {before : List (List Char)}
    (each : ∀ (filling : Filling) part, add (filling.after before) part =
      (add filling part).after before) :
    parts.foldl add (filling.after before) = (parts.foldl add filling).after before := by
  induction parts generalizing filling with
  | nil => rfl
  | cons part parts ih => rw [List.foldl_cons, each, ih, List.foldl_cons]

theorem pushParagraph_after {before : List (List Char)} :
    pushParagraph size (filling.after before) para =
    (pushParagraph size filling para).after before := by
  rw [pushParagraph, pushParagraph, Filling.cur_after, Filling.pushIf_after]
  exact foldl_after fun filling piece => pushPiece_after

/-- A marked paragraph stands behind what is done, as if it came first. -/
theorem pushParagraph_marked (marked : sourceMarker <+: para) :
    pushParagraph size filling para = (pushParagraph size .empty para).after filling.finish := by
  rw [← pushParagraph_after, pushParagraph, pushParagraph,
    if_neg (show ¬(sourceMarker <+: para ∧
      (Filling.empty.after filling.finish).cur ≠ []) from fun both => both.2 rfl)]
  congr 1
  rw [Filling.finish]
  split_ifs with both growing growing
  · simp [Filling.push, Filling.after, Filling.empty]
  · exact absurd both.2 growing
  · exact absurd ⟨marked, growing⟩ both
  · obtain ⟨pieces, cur⟩ := filling
    obtain rfl : cur = [] := not_not.mp growing
    simp [Filling.after, Filling.empty]

/-- **A marked paragraph breaks the chunks**: those before it and those from it on are apart. -/
theorem chunkParagraphs_marked {before after : List (List Char)} (marked : sourceMarker <+: para) :
    chunkParagraphs size (before ++ para :: after) =
      chunkParagraphs size before ++ chunkParagraphs size (para :: after) := by
  rw [chunkParagraphs, List.foldl_append, List.foldl_cons, pushParagraph_marked marked,
    foldl_after fun filling para => pushParagraph_after, Filling.finish_after]
  rfl

/-- What stands first in a filling begins with a text. -/
def Filling.Begins (filling : Filling) (text : List Char) : Prop :=
  ∃ first, (filling.pieces ++ [filling.cur]).head? = some first ∧ text <+: first

theorem Filling.Begins.push (begins : filling.Begins text) : filling.push.Begins text := by
  obtain ⟨first, head, opens⟩ := begins
  refine ⟨first, ?_, opens⟩
  rw [Filling.push, List.head?_append, head]
  rfl

theorem Filling.Begins.pushIf [Decidable full] (begins : filling.Begins text) :
    (if full then filling.push else filling).Begins text := by
  split_ifs
  · exact begins.push
  · exact begins

theorem Filling.Begins.join (begins : filling.Begins text) (shown : text ≠ []) :
    (filling.join separator part).Begins text := by
  obtain ⟨first, head, opens⟩ := begins
  obtain ⟨pieces, cur⟩ := filling
  cases pieces with
  | cons piece pieces => exact ⟨first, head, opens⟩
  | nil =>
    obtain rfl : cur = first := Option.some.inj head
    have growing : cur ≠ [] := fun empty => shown (List.prefix_nil.mp (empty ▸ opens))
    refine ⟨cur ++ separator ++ part, ?_, opens.trans ?_⟩
    · rw [Filling.join, if_pos growing]
      rfl
    · exact (List.prefix_append cur separator).trans (List.prefix_append _ part)

theorem begins_pushPieces (shown : text ≠ []) (begins : filling.Begins text) :
    (parts.foldl (pushPiece size) filling).Begins text := by
  induction parts generalizing filling with
  | nil => exact begins
  | cons part parts ih => exact ih (begins.pushIf.join shown)

theorem begins_pushParagraphs (shown : text ≠ []) (begins : filling.Begins text) :
    (paras.foldl (pushParagraph size) filling).Begins text := by
  induction paras generalizing filling with
  | nil => exact begins
  | cons para paras ih => exact ih (begins_pushPieces shown begins.pushIf)

theorem Filling.Begins.finish (begins : filling.Begins text) (shown : text ≠ []) :
    ∃ first rest, filling.finish = first :: rest ∧ text <+: first := by
  obtain ⟨first, head, opens⟩ := begins
  obtain ⟨pieces, cur⟩ := filling
  rw [Filling.finish]
  split_ifs with growing
  · exact ⟨first, (pieces ++ [cur]).tail, List.eq_cons_of_mem_head? head, opens⟩
  · obtain rfl : cur = [] := not_not.mp growing
    cases pieces with
    | nil =>
      obtain rfl : [] = first := Option.some.inj head
      exact absurd (List.prefix_nil.mp opens) shown
    | cons piece pieces =>
      obtain rfl : piece = first := Option.some.inj head
      exact ⟨piece, pieces, rfl, opens⟩

/-- The first chunk of paragraphs begins with the first piece of the first of them. -/
theorem chunkParagraphs_begins (paras : List (List Char)) (positive : 0 < size)
    (shown : ink para ≠ []) :
    ∃ piece first rest, (splitParagraph para size).head? = some piece ∧
      chunkParagraphs size (para :: paras) = first :: rest ∧ piece <+: first := by
  obtain ⟨kept, pieces⟩ := splitParagraph_sound positive shown
  cases split : splitParagraph para size with
  | nil =>
    rw [split] at kept
    exact absurd kept.symm shown
  | cons piece others =>
    have inhabited : piece ≠ [] :=
      fun empty => (pieces piece (split ▸ List.mem_cons_self)).shown (by rw [empty]; rfl)
    have begun : (pushPiece size .empty piece).Begins piece := ⟨piece, rfl, List.prefix_rfl⟩
    have begins : (pushParagraph size .empty para).Begins piece := by
      rw [pushParagraph, if_neg fun marked => marked.2 rfl, split, List.foldl_cons]
      exact begins_pushPieces inhabited begun
    have begins : (paras.foldl (pushParagraph size) (pushParagraph size .empty para)).Begins piece :=
      begins_pushParagraphs inhabited begins
    obtain ⟨first, rest, finished, opens⟩ := begins.finish inhabited
    exact ⟨piece, first, rest, rfl, finished, opens⟩

/-- **Chunking.** The chunks have the ink of the document, in order; none is empty, and none is
longer than asked. A marked paragraph begins a chunk: the chunks before it have what stands before
it, those from there on have the rest, and the first of them begins with the paragraph's first
piece. -/
theorem chunk_sound (doc : List Char) (size : ℕ) :
    ink (chunk doc size).flatten = ink doc ∧
      (∀ piece ∈ chunk doc size, piece.length ≤ max size 200 ∧ ink piece ≠ []) ∧
      ∀ before para after, paragraphs doc = before ++ para :: after → sourceMarker <+: para →
        ∃ left piece first rest, chunk doc size = left ++ first :: rest ∧
          ink left.flatten = ink before.flatten ∧
          ink (first :: rest).flatten = ink (para :: after).flatten ∧
          (splitParagraph para (max size 200)).head? = some piece ∧ piece <+: first := by
  obtain ⟨kept, pieces⟩ := chunk_pieces doc size
  refine ⟨kept, fun piece among => ⟨(pieces piece among).fits, (pieces piece among).shown⟩, ?_⟩
  intro before para after cut marked
  have positive : 0 < max size 200 := by omega
  have shown : ∀ other ∈ before ++ para :: after, ink other ≠ [] :=
    fun other among => ink_paragraph (cut ▸ among)
  obtain ⟨shownBefore, shownAfter⟩ := List.forall_mem_append.mp shown
  obtain ⟨piece, first, rest, head, begins, opens⟩ :=
    chunkParagraphs_begins after positive (shownAfter para List.mem_cons_self)
  refine ⟨chunkParagraphs (max size 200) before, piece, first, rest, ?_, ?_, ?_, head, opens⟩
  · rw [chunk, cut, chunkParagraphs_marked marked, begins]
  · exact (chunkParagraphs_sound positive shownBefore).1
  · rw [← begins]
    exact (chunkParagraphs_sound positive shownAfter).1

/-- A text of two chunks or more is cut: each of them has less ink. -/
theorem ink_lt_of_chunk (several : 2 ≤ (chunk text size).length) (among : piece ∈ chunk text size) :
    (ink piece).length < (ink text).length := by
  obtain ⟨kept, pieces⟩ := chunk_pieces text size
  obtain ⟨before, after, cut⟩ := List.append_of_mem among
  have other : ∃ other ∈ before ++ after, ink other ≠ [] := by
    rw [cut, List.length_append, List.length_cons] at several
    have inhabited : 0 < (before ++ after).length := by
      rw [List.length_append]
      omega
    obtain ⟨other, rest, same⟩ := List.exists_cons_of_length_pos inhabited
    refine ⟨other, same ▸ List.mem_cons_self, (pieces other ?_).shown⟩
    rw [cut, List.mem_append, List.mem_cons]
    have := List.mem_append.mp (same ▸ List.mem_cons_self : other ∈ before ++ after)
    tauto
  obtain ⟨other, among, shown⟩ := other
  have positive : 0 < (ink (before ++ after).flatten).length := by
    refine List.length_pos_iff.mpr fun nothing => shown (ink_eq_nil.mpr fun c inside => ?_)
    exact ink_eq_nil.mp nothing c (List.mem_flatten.mpr ⟨other, among, inside⟩)
  rw [← kept, cut]
  rw [List.flatten_append, ink_append, List.length_append] at positive
  rw [List.flatten_append, List.flatten_cons, ink_append, ink_append, List.length_append,
    List.length_append]
  omega

end DrStrange.Llm
