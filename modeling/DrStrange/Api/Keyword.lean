/-
**A keyword index kept in step, and the search over it.**

An index takes a document in by what its text counts and takes it out by the terms kept beside its
length. Whatever documents came and went, it describes the texts that are there: every term has one
posting for each text it occurs in, with how often, every text that has terms has its length and its
terms, and the lengths add up. Two indexes that describe the same texts have the same postings up to
their order within a term, and a search cannot tell them apart (`incremental_eq_rebuilt`).

Counts are natural numbers: a text lands in one commit record, whose length is a `u32`, so it has
fewer terms than the counters of the code hold.
-/

import DrStrange.Lib.Tally
import DrStrange.Lib.TreeMap
import DrStrange.Api.Registry

namespace DrStrange.Graph

open Std Lib ExtTreeMap

variable {host : Host} {entry other : KeywordEntry} {texts : NodeId → Option String} {node : NodeId}
  {term text : String} {postings : ExtTreeMap String (List (NodeId × ℕ)) compare}
  {language : Language} {tokens terms : List String}

/-! ### Search -/

/-- BM25 term-frequency saturation. -/
def Bm25.k1 : Float32 := 1.2

/-- BM25 length-normalization strength. -/
def Bm25.b : Float32 := 0.75

/-- What one posting adds to the score of its node. -/
def KeywordEntry.score (entry : KeywordEntry) (postings : List (NodeId × ℕ))
    (posting : NodeId × ℕ) : Float32 :=
  let n := Float32.ofNat entry.docs.size
  let avgdl := Float32.ofNat entry.totalLen / n
  let df := Float32.ofNat postings.length
  let idf := Float32.log ((n - df + 0.5) / (df + 0.5) + 1)
  let dl := Float32.ofNat (entry.docs[posting.1]?.elim 0 DocEntry.len)
  let tf := Float32.ofNat posting.2
  let denom := tf + Bm25.k1 * (1 - Bm25.b + Bm25.b * dl / avgdl)
  idf * (tf * (Bm25.k1 + 1)) / denom

/-- The scores after one more term of the query. -/
def KeywordEntry.scoreTerm (entry : KeywordEntry) (scores : ExtTreeMap NodeId Float32 compare)
    (term : String) : ExtTreeMap NodeId Float32 compare :=
  match entry.postings[term]? with
  | none => scores
  | some postings => postings.foldl (fun scores posting =>
    scores.insert posting.1 (scores.getD posting.1 0 + entry.score postings posting)) scores

/-- Highest score first, ties by ascending id; scores that do not compare count as equal. -/
def scoreBefore (one two : NodeId × Float32) : Bool :=
  if two.2 < one.2 then true else if one.2 < two.2 then false else one.1 ≤ two.1

/-- The terms of a query in order, each once. -/
def queryTerms (host : Host) (language : Language) (query : String) : List String :=
  ((host.analyze language query).mergeSort fun one two => one ≤ two).destutter (· ≠ ·)

/-- BM25 top-`k` for a query. -/
def KeywordEntry.search (host : Host) (entry : KeywordEntry) (query : String) (k : ℕ) :
    List (NodeId × Float32) :=
  if entry.docs.size = 0 ∨ k = 0 then []
  else
    let scores := (queryTerms host entry.language query).foldl entry.scoreTerm ∅
    (scores.toList.mergeSort scoreBefore).take k

/-! ### Updates -/

/-- What is asked of an index. -/
inductive DocUpdate where
  | upsert (node : NodeId) (text : String)
  | remove (node : NodeId)

def KeywordEntry.after (host : Host) (entry : KeywordEntry) : DocUpdate → KeywordEntry
  | .upsert node text => (keywordKind host).upsert entry node text
  | .remove node => (keywordKind host).remove entry node

/-- The texts that are there after an update. -/
def textsAfter (texts : ExtTreeMap NodeId String compare) :
    DocUpdate → ExtTreeMap NodeId String compare
  | .upsert node text => texts.insert node text
  | .remove node => texts.erase node

/-- The final document set. -/
def finalTexts (updates : List DocUpdate) : ExtTreeMap NodeId String compare :=
  updates.foldl textsAfter ∅

/-! ### What an index describes -/

/-- How often a term occurs in the text of a node. -/
def occurrences (host : Host) (language : Language) (texts : NodeId → Option String) (term : String)
    (node : NodeId) : ℕ :=
  (texts node).elim 0 fun text => (host.analyze language text).count term

/-- The postings of a term, none if it has no list. -/
def KeywordEntry.postingsOf (entry : KeywordEntry) (term : String) : List (NodeId × ℕ) :=
  entry.postings.getD term []

structure KeywordEntry.Describes (host : Host) (entry : KeywordEntry)
    (texts : NodeId → Option String) : Prop where
  docs : ∀ node, entry.docs[node]? = (texts node).bind (document host entry.language)
  postings : ∀ term posting, posting ∈ entry.postingsOf term ↔
    posting.2 = occurrences host entry.language texts term posting.1 ∧ 0 < posting.2
  apart : ∀ term, ((entry.postingsOf term).map Prod.fst).Nodup
  present : ∀ (term : String) postings, entry.postings[term]? = some postings → postings ≠ []
  total : (entry.totalLen : ℤ) = tally (fun _ doc => (doc.len : ℤ)) entry.docs

/-! ### Counting terms -/

theorem getElem?_termCounts :
    (termCounts tokens)[term]? = if term ∈ tokens then some (tokens.count term) else none := by
  induction tokens using List.reverseRecOn with
  | nil => rfl
  | append_singleton tokens token ih =>
    have counts : termCounts (tokens ++ [token]) =
        (termCounts tokens).insert token ((termCounts tokens).getD token 0 + 1) := by
      unfold termCounts
      rw [List.foldl_append]
      rfl
    rw [counts, getElem?_insert, List.count_append]
    simp only [List.mem_append, List.mem_singleton, Std.compare_eq_iff_eq]
    by_cases same : token = term
    · subst same
      have known : (termCounts tokens).getD token 0 = tokens.count token := by
        rw [getD_eq_getD_getElem?, ih]
        split_ifs with member
        · rfl
        · exact (List.count_eq_zero.mpr member).symm
      simp [known]
    · have different : term ≠ token := fun equal => same equal.symm
      simp [same, different, ih]

theorem mem_keys_termCounts : term ∈ (termCounts tokens).keys ↔ term ∈ tokens := by
  rw [mem_keys, ← isSome_getElem?_iff_mem, getElem?_termCounts]
  split_ifs with member <;> simp [member]

/-! ### The postings after an update -/

theorem postingsOf_addDoc : (entry.addDoc host node text).postingsOf term =
    entry.postingsOf term ++
      if term ∈ host.analyze entry.language text then
        [(node, (host.analyze entry.language text).count term)] else [] := by
  unfold KeywordEntry.addDoc document
  by_cases empty : (host.analyze entry.language text).isEmpty
  · rw [List.isEmpty_iff] at empty
    simp [empty]
  · rw [if_neg empty]
    simp only [KeywordEntry.postingsOf]
    rw [foldl_adjust (fun postings : ExtTreeMap String (List (NodeId × ℕ)) compare =>
        postings.getD term []) (fun nodes count => nodes ++ [(node, count)]) term,
      getElem?_termCounts]
    · split_ifs <;> simp
    · intro postings count
      simp
    · intro postings other count different
      simp [getD_insert, different]

theorem postings_addDoc_present
    (present : ∀ (term : String) postings, entry.postings[term]? = some postings → postings ≠ []) :
    ∀ (term : String) postings, (entry.addDoc host node text).postings[term]? = some postings →
      postings ≠ [] := by
  intro term postings
  unfold KeywordEntry.addDoc
  cases document host entry.language text with
  | none => exact present term postings
  | some doc =>
    simp only
    rw [foldl_adjust (fun postings : ExtTreeMap String (List (NodeId × ℕ)) compare =>
      postings[term]?) (fun nodes count => some (nodes.getD [] ++ [(node, count)])) term]
    · cases (termCounts (host.analyze entry.language text))[term]? with
      | none => exact present term postings
      | some count =>
        intro held
        rw [← Option.some.inj held]
        simp
    · intro postings count
      simp [getD_eq_getD_getElem?]
    · intro postings other count different
      simp [getElem?_insert, different]

theorem getD_dropPosting {gone : String} : (dropPosting node postings gone).getD term [] =
      if gone = term then (postings.getD term []).filter fun posting => posting.1 ≠ node
      else postings.getD term [] := by
  unfold dropPosting
  by_cases same : gone = term
  · subst same
    rw [if_pos rfl]
    simp only [getD_eq_getD_getElem?]
    cases known : postings[gone]? with
    | none => simp [known]
    | some nodes =>
      simp only [Option.getD_some]
      split_ifs with empty
      · rw [List.isEmpty_iff] at empty
        rw [getElem?_erase_self, empty]
        rfl
      · rw [getElem?_insert_self, Option.getD_some]
  · rw [if_neg same]
    cases postings[gone]? with
    | none => rfl
    | some nodes =>
      simp only
      split_ifs <;> simp [getD_erase, getD_insert, same]

theorem getD_dropPostings :
    (terms.foldl (dropPosting node) postings).getD term [] =
      if term ∈ terms then (postings.getD term []).filter fun posting => posting.1 ≠ node
      else postings.getD term [] := by
  induction terms generalizing postings with
  | nil => rfl
  | cons gone terms ih =>
    rw [List.foldl_cons, ih, getD_dropPosting]
    by_cases same : gone = term
    · simp [same, List.filter_filter]
    · have different : term ≠ gone := fun equal => same equal.symm
      simp [same, different]

theorem dropPostings_present
    (present : ∀ (term : String) nodes, postings[term]? = some nodes → nodes ≠ []) :
    ∀ (term : String) nodes, (terms.foldl (dropPosting node) postings)[term]? = some nodes →
      nodes ≠ [] := by
  induction terms generalizing postings with
  | nil => exact present
  | cons gone terms ih =>
    rw [List.foldl_cons]
    refine ih fun term nodes => ?_
    unfold dropPosting
    cases postings[gone]? with
    | none => exact present term nodes
    | some held =>
      simp only
      split_ifs with empty
      · rw [getElem?_erase]
        split_ifs
        · exact nofun
        · exact present term nodes
      · rw [getElem?_insert]
        split_ifs
        · intro same
          rw [← Option.some.inj same]
          simpa using empty
        · exact present term nodes

/-! ### An index describes the texts that are there -/

theorem KeywordEntry.Describes.new {language : Language} :
    (KeywordEntry.new language).Describes host fun _ => none where
  docs _ := by simp [KeywordEntry.new]
  postings term posting := by
    simp [KeywordEntry.new, postingsOf, occurrences]
  apart term := by simp [KeywordEntry.new, postingsOf]
  present term postings held := by simp [KeywordEntry.new] at held
  total := rfl

/-- A term occurs in the texts that have a document naming it. -/
theorem occurrences_eq_zero
    (absent : ∀ doc, (texts node).bind (document host language) = some doc → term ∉ doc.terms) :
    occurrences host language texts term node = 0 := by
  unfold occurrences
  cases known : texts node with
  | none => rfl
  | some text =>
    rw [known, Option.bind_some] at absent
    show (host.analyze language text).count term = 0
    rw [List.count_eq_zero]
    intro member
    have named : document host language text =
        some ⟨(host.analyze language text).length,
          (termCounts (host.analyze language text)).keys⟩ := by
      unfold document
      rw [if_neg (by simpa using List.ne_nil_of_mem member)]
    exact absent _ named (mem_keys_termCounts.mpr member)

theorem occurrences_update {value : Option String} {other : NodeId} :
    occurrences host language (Function.update texts node value) term other =
      if other = node then value.elim 0 fun text => (host.analyze language text).count term
      else occurrences host language texts term other := by
  unfold occurrences
  by_cases same : other = node
  · subst same
    simp
  · simp [same]

/-- No counter underflows: the length of a document is part of the total. -/
theorem KeywordEntry.Describes.len_le (describes : entry.Describes host texts) {doc : DocEntry}
    (stored : entry.docs[node]? = some doc) : doc.len ≤ entry.totalLen := by
  have total := describes.total
  rw [tally_eq entry.docs node, stored, weigh_some] at total
  have rest : 0 ≤ ((entry.docs.toList.filter fun row => row.1 ≠ node).map
      fun row => (row.2.len : ℤ)).sum := by
    refine List.sum_nonneg fun len member => ?_
    obtain ⟨row, -, rfl⟩ := List.mem_map.mp member
    exact Int.natCast_nonneg _
  omega

/-- **A document taken out** leaves no trace of its text. -/
theorem KeywordEntry.Describes.removeDoc (describes : entry.Describes host texts) (node : NodeId) :
    (entry.removeDoc node).Describes host (Function.update texts node none) := by
  have known := describes.docs node
  have terms : ∀ term, (entry.removeDoc node).postingsOf term =
      (entry.postingsOf term).filter fun posting => posting.1 ≠ node := by
    intro term
    have kept : (∀ doc, entry.docs[node]? = some doc → term ∉ doc.terms) →
        (entry.postingsOf term).filter (fun posting => posting.1 ≠ node) = entry.postingsOf term := by
      intro absent
      refine List.filter_eq_self.mpr fun posting member => ?_
      rw [decide_eq_true_eq]
      intro same
      obtain ⟨count, positive⟩ := (describes.postings term posting).mp member
      rw [same, occurrences_eq_zero fun doc held => absent doc (known.trans held)] at count
      omega
    unfold KeywordEntry.removeDoc
    cases stored : entry.docs[node]? with
    | none => exact (kept fun doc held => nomatch stored.symm.trans held).symm
    | some doc =>
      show (doc.terms.foldl (dropPosting node) entry.postings).getD term [] = _
      rw [getD_dropPostings]
      split_ifs with member
      · rfl
      · refine (kept fun other held => ?_).symm
        rwa [← Option.some.inj (stored.symm.trans held)]
  refine ⟨fun other => ?_, fun term posting => ?_, fun term => ?_, ?_, ?_⟩
  · rw [KeywordEntry.docs_removeDoc, language_removeDoc, describes.docs]
    by_cases same : node = other
    · subst same
      simp
    · simp [same, Ne.symm same]
  · rw [terms, List.mem_filter, describes.postings, language_removeDoc, occurrences_update,
      decide_eq_true_eq]
    by_cases same : posting.1 = node
    · simp [same]
    · simp [same]
  · rw [terms]
    exact (describes.apart term).sublist (List.filter_sublist.map _)
  · unfold KeywordEntry.removeDoc
    cases entry.docs[node]? with
    | none => exact describes.present
    | some doc => exact dropPostings_present describes.present
  · unfold KeywordEntry.removeDoc
    cases stored : entry.docs[node]? with
    | none => exact describes.total
    | some doc =>
      have erased : tally (fun _ (doc : DocEntry) => (doc.len : ℤ)) (entry.docs.write node none) =
          _ :=
        tally_write
      rw [stored, weigh_some, weigh_none] at erased
      show ((entry.totalLen - doc.len : ℕ) : ℤ) = tally _ (entry.docs.erase node)
      rw [Nat.cast_sub (describes.len_le stored), describes.total]
      exact (erased.trans (add_zero _)).symm

/-- **A text taken in** where there was none. -/
theorem KeywordEntry.Describes.addDoc (describes : entry.Describes host texts)
    (absent : texts node = none) (text : String) :
    (entry.addDoc host node text).Describes host (Function.update texts node (some text)) := by
  have known := describes.docs node
  rw [absent, Option.bind_none] at known
  have fresh : ∀ term posting, posting ∈ entry.postingsOf term → posting.1 ≠ node := by
    intro term posting member same
    obtain ⟨count, positive⟩ := (describes.postings term posting).mp member
    rw [same, occurrences_eq_zero fun doc held => by rw [absent] at held; cases held] at count
    omega
  refine ⟨fun other => ?_, fun term posting => ?_, fun term => ?_, ?_, ?_⟩
  · rw [KeywordEntry.docs_addDoc, language_addDoc, describes.docs]
    by_cases same : node = other
    · subst same
      simp [absent]
    · simp [same, Ne.symm same]
  · rw [postingsOf_addDoc, List.mem_append, describes.postings, language_addDoc, occurrences_update]
    obtain ⟨own, count⟩ := posting
    by_cases same : own = node
    · subst same
      have none : occurrences host entry.language texts term own = 0 :=
        occurrences_eq_zero fun doc held => by rw [absent] at held; cases held
      rw [if_pos rfl, none]
      split_ifs with member
      · have positive := List.count_pos_iff.mpr member
        simp
        omega
      · have zero := List.count_eq_zero.mpr member
        simp [zero]
    · rw [if_neg same]
      split_ifs <;> simp [same]
  · rw [postingsOf_addDoc, List.map_append, List.nodup_append]
    refine ⟨describes.apart term, by split_ifs <;> simp, ?_⟩
    intro one first two second same
    obtain ⟨posting, member, rfl⟩ := List.mem_map.mp first
    split_ifs at second
    · rw [List.map_cons, List.map_nil, List.mem_singleton] at second
      exact fresh term posting member (same.trans second)
    · cases second
  · exact postings_addDoc_present describes.present
  · unfold KeywordEntry.addDoc
    cases analyzed : document host entry.language text with
    | none => exact describes.total
    | some doc =>
      have inserted : tally (fun _ (doc : DocEntry) => (doc.len : ℤ))
          (entry.docs.write node (some doc)) = _ := tally_write
      rw [known, weigh_some, weigh_none] at inserted
      show ((entry.totalLen + doc.len : ℕ) : ℤ) = tally _ (entry.docs.insert node doc)
      rw [Nat.cast_add, describes.total]
      exact (inserted.trans (by rw [sub_zero])).symm

theorem KeywordEntry.Describes.upsert (describes : entry.Describes host texts) (node : NodeId)
    (text : String) : ((entry.removeDoc node).addDoc host node text).Describes host
      (Function.update texts node (some text)) := by
  have added := (describes.removeDoc node).addDoc (Function.update_self _ _ _) text
  rwa [Function.update_idem] at added

/-! ### Indexes that describe the same texts -/

/-- The same documents, and the same postings up to the order within a term. -/
structure KeywordEntry.Same (entry other : KeywordEntry) : Prop where
  language : entry.language = other.language
  docs : entry.docs = other.docs
  totalLen : entry.totalLen = other.totalLen
  terms : ∀ term, term ∈ entry.postings ↔ term ∈ other.postings
  postings : ∀ term, (entry.postingsOf term).Perm (other.postingsOf term)

/-- Each node has one posting at most under a term, so their order does not matter. -/
theorem KeywordEntry.Describes.mem_postings (describes : entry.Describes host texts) :
    term ∈ entry.postings ↔ entry.postingsOf term ≠ [] := by
  unfold KeywordEntry.postingsOf
  rw [← isSome_getElem?_iff_mem, getD_eq_getD_getElem?]
  cases held : entry.postings[term]? with
  | none => simp
  | some postings => simpa using describes.present term postings held

theorem KeywordEntry.Describes.same (describes : entry.Describes host texts)
    (describes' : other.Describes host texts) (language : entry.language = other.language) :
    entry.Same other := by
  have docs : entry.docs = other.docs := by
    refine ext_getElem? fun node => ?_
    rw [describes.docs, describes'.docs, language]
  have postings : ∀ term, (entry.postingsOf term).Perm (other.postingsOf term) := by
    intro term
    refine (List.perm_ext_iff_of_nodup (describes.apart term).of_map
      (describes'.apart term).of_map).mpr fun posting => ?_
    rw [describes.postings, describes'.postings, language]
  refine ⟨language, docs, ?_, fun term => ?_, postings⟩
  · have total := describes.total
    rw [docs, ← describes'.total] at total
    exact_mod_cast total
  · rw [describes.mem_postings, describes'.mem_postings, not_iff_not]
    constructor
    · intro none
      exact List.perm_nil.mp (none ▸ (postings term).symm)
    · intro none
      exact List.perm_nil.mp (none ▸ postings term)

theorem KeywordEntry.Same.scoreTerm (same : entry.Same other)
    (apart : ((entry.postingsOf term).map Prod.fst).Nodup)
    (scores : ExtTreeMap NodeId Float32 compare) :
    entry.scoreTerm scores term = other.scoreTerm scores term := by
  have perm := same.postings term
  have known := same.terms term
  unfold KeywordEntry.postingsOf at perm apart
  rw [← isSome_getElem?_iff_mem, ← isSome_getElem?_iff_mem] at known
  simp only [getD_eq_getD_getElem?] at perm apart
  unfold KeywordEntry.scoreTerm
  cases mine : entry.postings[term]? with
  | none =>
    cases yours : other.postings[term]? with
    | none => rfl
    | some _ => simp [mine, yours] at known
  | some postings =>
    cases yours : other.postings[term]? with
    | none => simp [mine, yours] at known
    | some others =>
      rw [mine, yours, Option.getD_some, Option.getD_some] at perm
      rw [mine, Option.getD_some] at apart
      have scored : entry.score postings = other.score others := by
        funext posting
        unfold KeywordEntry.score
        rw [same.docs, same.totalLen, perm.length_eq]
      simp only
      rw [scored]
      refine perm.foldl_eq' (fun one first two second scores => ?_) scores
      by_cases equal : one = two
      · rw [equal]
      · -- Two postings of one term are of different nodes.
        have different : one.1 ≠ two.1 := fun clash =>
          equal (List.inj_on_of_nodup_map apart first second clash)
        refine ext_getElem? fun node => ?_
        simp only [getElem?_insert, getD_insert, Std.compare_eq_iff_eq, different,
          Ne.symm different, if_false]
        by_cases here : one.1 = node
        · have there : two.1 ≠ node := fun clash => different (here.trans clash.symm)
          simp [here, there]
        · simp [here]

/-- **A search cannot tell them apart.** -/
theorem KeywordEntry.Same.search (same : entry.Same other)
    (apart : ∀ term, ((entry.postingsOf term).map Prod.fst).Nodup) (query : String) (k : ℕ) :
    entry.search host query k = other.search host query k := by
  have scores : entry.scoreTerm = other.scoreTerm := by
    funext scores term
    exact same.scoreTerm (apart term) scores
  unfold KeywordEntry.search
  rw [same.docs, same.language, scores]

/-! ### Runs -/

/-- An index after updates, from an empty one. -/
def KeywordEntry.run (host : Host) (language : Language) (updates : List DocUpdate) : KeywordEntry :=
  updates.foldl (.after host) (.new language)

/-- Nothing is left of what went, and every counter covers what is still to be taken off it. -/
structure KeywordEntry.Tidy (entry : KeywordEntry) : Prop where
  covered : ∀ (node : NodeId) (doc : DocEntry), entry.docs[node]? = some doc →
    doc.len ≤ entry.totalLen
  postings : ∀ (term : String) postings, entry.postings[term]? = some postings →
    postings ≠ [] ∧ ∀ posting ∈ postings, 0 < posting.2

theorem KeywordEntry.Describes.tidy (describes : entry.Describes host texts) : entry.Tidy := by
  refine ⟨fun node doc stored => describes.len_le stored, fun term postings held => ?_⟩
  refine ⟨describes.present term postings held, fun posting member => ?_⟩
  refine ((describes.postings term posting).mp ?_).2
  unfold KeywordEntry.postingsOf
  rwa [getD_eq_getD_getElem?, held]

theorem KeywordEntry.Describes.after {texts : ExtTreeMap NodeId String compare}
    (describes : entry.Describes host fun node => texts[node]?) (update : DocUpdate) :
    (entry.after host update).Describes host fun node => (textsAfter texts update)[node]? := by
  cases update with
  | upsert node text =>
    have next := describes.upsert node text
    have texts' : Function.update (fun node => texts[node]?) node (some text) =
        fun other => (texts.insert node text)[other]? := by
      funext other
      by_cases equal : node = other
      · simp [equal]
      · simp [getElem?_insert, equal, Ne.symm equal]
    rwa [texts'] at next
  | remove node =>
    have next := describes.removeDoc node
    have texts' : Function.update (fun node => texts[node]?) node none =
        fun other => (texts.erase node)[other]? := by
      funext other
      by_cases equal : node = other
      · simp [equal]
      · simp [getElem?_erase, equal, Ne.symm equal]
    rwa [texts'] at next

theorem KeywordEntry.describes_run (host : Host) (language : Language) (updates : List DocUpdate) :
    (KeywordEntry.run host language updates).Describes host fun node =>
      (finalTexts updates)[node]? := by
  unfold KeywordEntry.run finalTexts
  induction updates using List.reverseRecOn with
  | nil => simpa using KeywordEntry.Describes.new
  | append_singleton updates update ih =>
    rw [List.foldl_concat, List.foldl_concat]
    exact ih.after update

theorem KeywordEntry.language_run {updates : List DocUpdate} :
    (KeywordEntry.run host language updates).language = language := by
  unfold KeywordEntry.run
  induction updates using List.reverseRecOn with
  | nil => rfl
  | append_singleton updates update ih =>
    rw [List.foldl_concat]
    cases update with
    | upsert node text => exact ((keywordContents host).setting_upsert _ node text).trans ih
    | remove node => exact ((keywordContents host).setting_remove _ node).trans ih

/-- An index built from a batch describes what the batch says. -/
theorem describes_build {items : List (NodeId × String)} (apart : (items.map Prod.fst).Nodup)
    (describes : entry.Describes host texts) (absent : ∀ item ∈ items, texts item.1 = none) :
    (items.foldl (fun entry item => entry.addDoc host item.1 item.2) entry).Describes host
      fun node => (Items.find items node).or (texts node) := by
  induction items generalizing entry texts with
  | nil => exact describes
  | cons item items ih =>
    obtain ⟨fresh, apart⟩ := List.nodup_cons.mp apart
    have added := describes.addDoc (absent item List.mem_cons_self) item.2
    have later : ∀ other ∈ items, Function.update texts item.1 (some item.2) other.1 = none := by
      intro other member
      have different : other.1 ≠ item.1 := fun same =>
        fresh (same ▸ List.mem_map_of_mem member)
      rw [Function.update_of_ne different]
      exact absent other (List.mem_cons_of_mem _ member)
    have whole := ih apart added later
    have texts' : (fun node => (Items.find items node).or
        (Function.update texts item.1 (some item.2) node)) =
        fun node => (Items.find (item :: items) node).or (texts node) := by
      funext node
      rw [Items.find_cons]
      by_cases same : item.1 = node
      · subst same
        simp [Items.find_absent fresh]
      · simp [same, Ne.symm same]
    rwa [texts'] at whole

/-- **An index kept in step is the one built from the final documents**, whatever updates came and
in whatever order the documents are scanned, and a search of either finds the same. -/
theorem incremental_eq_rebuilt (host : Host) (language : Language) (updates : List DocUpdate)
    (items : Items String) (final : items.1.Perm (finalTexts updates).toList) :
    (KeywordEntry.run host language updates).Same ((keywordKind host).build language items) ∧
      (KeywordEntry.run host language updates).Tidy ∧
      ∀ query k, (KeywordEntry.run host language updates).search host query k =
        ((keywordKind host).build language items).search host query k := by
  have kept := KeywordEntry.describes_run host language updates
  have built := describes_build items.2 (@KeywordEntry.Describes.new host language) fun _ _ => rfl
  have texts : (fun node => (finalTexts updates)[node]?) =
      fun node => (Items.find items.1 node).or none := by
    funext node
    refine Option.ext fun text => ?_
    rw [Option.or_none, Items.find_eq items.2, final.mem_iff, mem_toList_iff_getElem?_eq_some]
  rw [texts] at kept
  have languages : (KeywordEntry.run host language updates).language =
      ((keywordKind host).build language items).language :=
    KeywordEntry.language_run.trans ((keywordContents host).setting_build language items).symm
  have same := kept.same built languages
  exact ⟨same, kept.tidy, fun query k => same.search kept.apart query k⟩

/-- A host that takes the words between blanks. -/
def blankHost : Host := ⟨1, fun _ text => (text.splitOn " ").filter fun word => word ≠ ""⟩

/-- A text replaced by another, an empty one, and one that goes again. -/
def replacedText : List DocUpdate :=
  [.upsert 1 "a graph", .upsert 2 "an index", .upsert 1 "a graph of a graph", .upsert 3 "", .remove 2,
    .remove 7]

theorem incremental_eq_rebuilt_of_replaced :
    (KeywordEntry.run blankHost .english replacedText).Same ((keywordKind blankHost).build .english
      ⟨(finalTexts replacedText).toList, List.pairwise_map.mpr
        (distinct_keys_toList.imp fun apart same => apart (Std.compare_eq_iff_eq.mpr same))⟩) :=
  (incremental_eq_rebuilt blankHost .english replacedText ⟨(finalTexts replacedText).toList, _⟩
    (List.Perm.refl _)).1

end DrStrange.Graph
