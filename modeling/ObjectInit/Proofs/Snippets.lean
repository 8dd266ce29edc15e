import ObjectInit.Proofs.FileSpans

/-!
# What a snippet shows

A snippet has a slice for every file in which there is something to remark, and the slices keep
their remarks in order. Remarks on spans that are empty, or that do not lie inside of a file, are
left out; nothing else is lost, repeated or moved to another file.

Main results:

* `Slice.Presents.annotate`: what one more remark changes.
* `Slice.presents_ofAnnotations`: the slices that are made for a list of remarks.
* `SafetyError.snippet_presents`: the slices of the snippet of an error.
-/

namespace ObjectInit

/-- The remark is shown in the file, which contains its span. -/
def Files.Shows (files : Files) (id : FileId) (a : Annotation) : Prop :=
  0 < a.span.len ∧ files.Contains id a.span

instance (files : Files) (id : FileId) (a : Annotation) : Decidable (files.Shows id a) :=
  inferInstanceAs (Decidable (_ ∧ _))

/-- The number of the first remark that is shown in the file. -/
def Files.firstShown (files : Files) (as : List Annotation) (id : FileId) : Nat :=
  as.findIdx (files.Shows id ·)

namespace Slice

/-- The remark with its span as it is among all files. -/
def inFiles (files : Files) (id : FileId) (a : Annotation) : Annotation :=
  { a with span := ⟨files.offset id + a.span.start, a.span.len⟩ }

/-- The remarks of a slice, with their spans as they are among all files. -/
def remarks (files : Files) (slice : Slice) : List Annotation :=
  slice.annotations.map (inFiles files slice.file)

/-- The remarks of the slices of a file. -/
def remarksOn (files : Files) (slices : List Slice) (id : FileId) : List Annotation :=
  (slices.filter (·.file = id)).flatMap (remarks files)

/-- The slices present the remarks: each file has its own in their order, and the files are ordered
    by their first remarks. -/
structure Presents (files : Files) (as : List Annotation) (slices : List Slice) : Prop where
  remarks (id : FileId) : remarksOn files slices id = as.filter (files.Shows id ·)
  order : (slices.map Slice.file).Pairwise fun i j => files.firstShown as i < files.firstShown as j
  source (s : Slice) (hs : s ∈ slices) : s.source = files.get s.file
  nonempty (s : Slice) (hs : s ∈ slices) : s.annotations ≠ []
  inside (s : Slice) (hs : s ∈ slices) (a : Annotation) (ha : a ∈ s.annotations) :
    a.span.start + a.span.len ≤ s.source.size

variable {files : Files} {as bs : List Annotation} {a : Annotation} {slices : List Slice}
  {id id' : FileId} {s : Slice}

/-! ## Adding a remark to its slice -/

theorem map_file_addTo : (addTo files id a slices).map file =
    if id ∈ slices.map file then slices.map file else slices.map file ++ [id] := by
  induction slices with
  | nil => rfl
  | cons s rest ih =>
    by_cases here : s.file = id
    · simp [addTo, here]
    · rw [addTo, if_neg here, List.map_cons, ih]
      by_cases later : id ∈ rest.map file <;> simp [later, Ne.symm here]

theorem mem_addTo {t : Slice} (h : t ∈ addTo files id a slices) :
    t ∈ slices ∨ t = ⟨id, files.get id, [a]⟩ ∨
      ∃ s ∈ slices, s.file = id ∧ t = { s with annotations := s.annotations ++ [a] } := by
  induction slices with
  | nil => exact .inr (.inl (List.mem_singleton.1 h))
  | cons s rest ih =>
    rw [addTo] at h
    split at h
    · next here =>
      rcases List.mem_cons.1 h with rfl | h
      · exact .inr (.inr ⟨s, List.mem_cons_self, here, rfl⟩)
      · exact .inl (List.mem_cons_of_mem s h)
    · rcases List.mem_cons.1 h with rfl | h
      · exact .inl List.mem_cons_self
      · rcases ih h with h | h | ⟨s', hs', here, same⟩
        · exact .inl (List.mem_cons_of_mem s h)
        · exact .inr (.inl h)
        · exact .inr (.inr ⟨s', List.mem_cons_of_mem s hs', here, same⟩)

theorem remarksOn_cons (s : Slice) (slices : List Slice) (id : FileId) :
    remarksOn files (s :: slices) id =
      (if s.file = id then remarks files s else []) ++ remarksOn files slices id := by
  by_cases here : s.file = id <;> simp [remarksOn, here]

theorem remarksOn_addTo_of_ne (ne : id ≠ id') :
    remarksOn files (addTo files id a slices) id' = remarksOn files slices id' := by
  induction slices with
  | nil => simp [addTo, remarksOn, ne]
  | cons s rest ih =>
    rw [addTo]
    split
    · next here => simp [remarksOn_cons, here, ne]
    · rw [remarksOn_cons, remarksOn_cons, ih]

theorem remarksOn_eq_nil (h : id ∉ slices.map file) : remarksOn files slices id = [] := by
  have none : slices.filter (·.file = id) = [] := by
    rw [List.filter_eq_nil_iff]
    intro s hs same
    exact h (List.mem_map.2 ⟨s, hs, of_decide_eq_true same⟩)
  rw [remarksOn, none, List.flatMap_nil]

/-- The new remark comes behind those that the file has. -/
theorem remarksOn_addTo (nodup : (slices.map file).Nodup) :
    remarksOn files (addTo files id a slices) id =
      remarksOn files slices id ++ [inFiles files id a] := by
  induction slices with
  | nil => simp [addTo, remarksOn, remarks]
  | cons s rest ih =>
    obtain ⟨other, nodup⟩ := List.nodup_cons.1 nodup
    rw [addTo]
    split
    · next here =>
      rw [here] at other
      simp [remarksOn_cons, here, remarks, remarksOn_eq_nil other]
    · rw [remarksOn_cons, remarksOn_cons, ih nodup, List.append_assoc]

namespace Presents

theorem nil : Presents files [] [] where
  remarks _ := rfl
  order := .nil
  source _ hs := nomatch hs
  nonempty _ hs := nomatch hs
  inside _ hs := nomatch hs

/-- Each slice has a remark of those that are presented. -/
theorem firstShown_lt (h : Presents files as slices) (mem : id ∈ slices.map file) :
    files.firstShown as id < as.length := by
  obtain ⟨s, hs, rfl⟩ := List.mem_map.1 mem
  obtain ⟨a, ha⟩ := List.exists_mem_of_ne_nil _ (h.nonempty s hs)
  have own : s ∈ slices.filter (·.file = s.file) := List.mem_filter.2 ⟨hs, decide_eq_true rfl⟩
  have shown : inFiles files s.file a ∈ remarksOn files slices s.file :=
    List.mem_flatMap.2 ⟨s, own, List.mem_map_of_mem ha⟩
  rw [h.remarks] at shown
  exact List.findIdx_lt_length_of_exists ⟨_, List.mem_filter.1 shown⟩

/-- What comes later does not change the first remark of a slice. -/
theorem firstShown_append (h : Presents files as slices) (bs : List Annotation)
    (mem : id ∈ slices.map file) : files.firstShown (as ++ bs) id = files.firstShown as id := by
  rw [Files.firstShown, List.findIdx_append]
  exact if_pos (h.firstShown_lt mem)

theorem order_append (h : Presents files as slices) (bs : List Annotation) :
    (slices.map file).Pairwise fun i j =>
      files.firstShown (as ++ bs) i < files.firstShown (as ++ bs) j :=
  h.order.imp_of_mem fun hi hj lt => by
    rwa [h.firstShown_append bs hi, h.firstShown_append bs hj]

theorem nodup (h : Presents files as slices) : (slices.map file).Nodup := by
  refine h.order.imp fun lt same => ?_
  rw [same] at lt
  exact Nat.lt_irrefl _ lt

/-- A remark that no file shows is left out. -/
theorem skip (h : Presents files as slices) (hidden : ∀ id, ¬files.Shows id a) :
    Presents files (as ++ [a]) slices :=
  { h with
    remarks := fun id => by simp [h.remarks, hidden id]
    order := h.order_append [a] }

/-- If there is no slice for the file yet, all slices have earlier remarks. -/
theorem firstShown_new (h : Presents files as slices) (new : id ∉ slices.map file)
    (shown : files.Shows id a) : files.firstShown (as ++ [a]) id = as.length := by
  have before : ∀ b ∈ as, ¬files.Shows id b := by
    have none := h.remarks id
    rw [remarksOn_eq_nil new, eq_comm, List.filter_eq_nil_iff] at none
    exact fun b hb => by simpa using none b hb
  rw [Files.firstShown, List.findIdx_append, if_neg, List.findIdx_cons, decide_eq_true shown,
    cond_true, Nat.zero_add]
  rw [List.findIdx_lt_length]
  rintro ⟨b, hb, hit⟩
  exact before b hb (of_decide_eq_true hit)

/-- A remark that is shown in a file is added to the slice of the file. -/
theorem add (h : Presents files as slices) (shown : files.Shows id a) :
    Presents files (as ++ [a]) (addTo files id
      { a with span := ⟨a.span.start - files.offset id, a.span.len⟩ } slices) where
  remarks id' := by
    rw [List.filter_append, ← h.remarks]
    by_cases same : id = id'
    · subst same
      rw [remarksOn_addTo h.nodup, List.filter_cons_of_pos (by simpa using shown), List.filter_nil,
        inFiles, Nat.add_sub_cancel' shown.2.start]
    · have hidden : ¬files.Shows id' a := fun shown' => same (shown.2.unique shown'.2 shown.1)
      rw [remarksOn_addTo_of_ne same, List.filter_cons_of_neg (by simpa using hidden),
        List.filter_nil, List.append_nil]
  order := by
    rw [map_file_addTo]
    split
    · exact h.order_append [a]
    · next new =>
      rw [List.pairwise_append]
      refine ⟨h.order_append [a], List.pairwise_singleton _ _, fun i hi j hj => ?_⟩
      rw [List.mem_singleton.1 hj, h.firstShown_new new shown, h.firstShown_append [a] hi]
      exact h.firstShown_lt hi
  source t ht := by
    rcases mem_addTo ht with ht | rfl | ⟨s, hs, -, rfl⟩
    · exact h.source t ht
    · rfl
    · exact h.source s hs
  nonempty t ht := by
    rcases mem_addTo ht with ht | rfl | ⟨s, hs, -, rfl⟩
    · exact h.nonempty t ht
    · exact List.cons_ne_nil _ _
    · exact List.append_ne_nil_of_right_ne_nil _ (List.cons_ne_nil _ _)
  inside t ht b hb := by
    have fits : a.span.start - files.offset id + a.span.len ≤ (files.get id).size := by
      have := shown.2.start
      have := shown.2.stop
      omega
    rcases mem_addTo ht with ht | rfl | ⟨s, hs, rfl, rfl⟩
    · exact h.inside t ht b hb
    · rw [List.mem_singleton.1 hb]
      exact fits
    · rcases List.mem_append.1 hb with hb | hb
      · exact h.inside s hs b hb
      · rw [List.mem_singleton.1 hb, h.source s hs]
        exact fits

/-- What one more remark changes. -/
theorem annotate (h : Presents files as slices) (fits : a.span.start + a.span.len < offsetLimit) :
    ∃ slices', Slice.annotate files slices a = .ok slices' ∧
      Presents files (as ++ [a]) slices' := by
  rcases Nat.eq_zero_or_pos a.span.len with empty | pos
  · refine ⟨slices, by simp [Slice.annotate, Span.isEmpty, empty, pure, Except.pure], ?_⟩
    exact h.skip fun id shown => Nat.ne_of_gt shown.1 empty
  · rcases Files.find_spec files fits with ⟨id, found, contains⟩ | ⟨found, none⟩
    · refine ⟨_, ?_, h.add ⟨pos, contains⟩⟩
      simp [Slice.annotate, Span.isEmpty, Nat.ne_of_gt pos, found, contains.relative, bind,
        Except.bind, pure, Except.pure]
    · refine ⟨slices, ?_, h.skip fun id shown => none id shown.2⟩
      simp [Slice.annotate, Span.isEmpty, Nat.ne_of_gt pos, found, bind, Except.bind, pure,
        Except.pure]

/-- What more remarks change. -/
theorem foldlM (h : Presents files as slices)
    (fits : ∀ a ∈ bs, a.span.start + a.span.len < offsetLimit) :
    ∃ slices', bs.foldlM (Slice.annotate files) slices = .ok slices' ∧
      Presents files (as ++ bs) slices' := by
  induction bs generalizing as slices with
  | nil => exact ⟨slices, rfl, by rwa [List.append_nil]⟩
  | cons b bs ih =>
    obtain ⟨first, rest⟩ := List.forall_mem_cons.1 fits
    obtain ⟨slices', run, h'⟩ := h.annotate first
    obtain ⟨slices'', run', h''⟩ := ih h' rest
    refine ⟨slices'', ?_, by rwa [← List.append_cons] at h''⟩
    rw [List.foldlM_cons, run]
    exact run'

end Presents

theorem presents_ofAnnotations (files : Files)
    (fits : ∀ a ∈ as, a.span.start + a.span.len < offsetLimit) :
    ∃ slices, ofAnnotations files as = .ok slices ∧ Presents files as slices :=
  Presents.nil.foldlM fits

end Slice

namespace SafetyError

/-- The last frames up to a limit. -/
theorem exists_lastUpTo {α : Type} (limit : Option Nat) (xs : List α) :
    ∃ front, xs = front ++ lastUpTo limit xs ∧
      (lastUpTo limit xs).length = limit.elim xs.length (min · xs.length) := by
  cases limit with
  | none => exact ⟨[], rfl, rfl⟩
  | some n =>
    refine ⟨xs.take (xs.length - n), (List.take_append_drop _ _).symm, ?_⟩
    rw [lastUpTo, List.length_drop, Option.elim]
    omega

/-- The snippet of an error has remarks on the span of the error and on the last calls of its trace
    that are elsewhere, up to the limit. Those that some file shows are in the slices: each file has
    one slice at most, with the source of the file and with its remarks in their order and at their
    places, and the files are in the order of their first remarks. -/
theorem snippet_presents (e : SafetyError) (config : Config) (files : Files)
    (fits : ∀ span ∈ e.span :: e.trace, span.start + span.len < offsetLimit) :
    ∃ snippet outer inner, e.snippet config files = .ok snippet ∧
      e.trace = outer ++ inner ∧
      inner.length = config.shownCalls.elim e.trace.length (min · e.trace.length) ∧
      let remarks : List Annotation := ⟨.error, e.span, e.label⟩ ::
        (inner.filter (· != e.span)).map (⟨.info, ·, "Called from here"⟩)
      (snippet.slices.map Slice.file).Nodup ∧
        (snippet.slices.map Slice.file).Pairwise (fun i j =>
          files.firstShown remarks i < files.firstShown remarks j) ∧
        (∀ id, Slice.remarksOn files snippet.slices id = remarks.filter (files.Shows id ·)) ∧
        ∀ slice ∈ snippet.slices, slice.source = files.get slice.file ∧ slice.annotations ≠ [] ∧
          ∀ a ∈ slice.annotations, a.span.start + a.span.len ≤ slice.source.size := by
  obtain ⟨outer, trace, length⟩ := exists_lastUpTo config.shownCalls e.trace
  have spans : ∀ a ∈ e.annotations config.shownCalls, a.span.start + a.span.len < offsetLimit := by
    obtain ⟨own, others⟩ := List.forall_mem_cons.1 fits
    refine List.forall_mem_cons.2 ⟨own, fun a ha => ?_⟩
    obtain ⟨span, hspan, rfl⟩ := List.mem_map.1 ha
    apply others
    rw [trace]
    exact List.mem_append_right _ (List.mem_filter.1 hspan).1
  obtain ⟨slices, run, presents⟩ := Slice.presents_ofAnnotations files spans
  refine ⟨⟨.error, "Init", e.message, slices, e.notes⟩, outer, _, ?_, trace, length,
    presents.nodup, presents.order, presents.remarks, fun slice hs => ?_⟩
  · rw [snippet, run]
    rfl
  · exact ⟨presents.source slice hs, presents.nonempty slice hs, presents.inside slice hs⟩

/-- An error in the second of two files. Of the calls that led to it, one is at the place of the
    error, one is across the files and one has no source. -/
def inSecondFile : SafetyError :=
  .readUninitialized "x" ⟨⟨2, 1⟩, [⟨0, 1⟩, ⟨2, 1⟩, ⟨1, 2⟩, ⟨0, 0⟩, ⟨1, 1⟩, ⟨3, 1⟩]⟩

/-- If five calls are shown, a remark on one of them stands in the first file, and one on another of
    them is added to the remark on the error. -/
theorem snippet_presents_inSecondFile :
    let files : Files := ⟨[⟨"ab", none⟩, ⟨"cd", none⟩]⟩
    (∀ span ∈ inSecondFile.span :: inSecondFile.trace, span.start + span.len < offsetLimit) ∧
      ∃ snippet, inSecondFile.snippet { shownCalls := some 5 } files = .ok snippet ∧
        (snippet.slices.map Slice.file).Nodup ∧
        Slice.remarksOn files snippet.slices 0 = [⟨.info, ⟨1, 1⟩, "Called from here"⟩] ∧
        Slice.remarksOn files snippet.slices 1 =
          [⟨.error, ⟨2, 1⟩, "'x' is not initialized at this point"⟩,
            ⟨.info, ⟨3, 1⟩, "Called from here"⟩] := by
  intro files
  have fits : ∀ span ∈ inSecondFile.span :: inSecondFile.trace,
      span.start + span.len < offsetLimit := by decide
  obtain ⟨snippet, outer, inner, eq, trace, length, nodup, -, remarks, -⟩ :=
    snippet_presents inSecondFile { shownCalls := some 5 } files fits
  have shown : inner = inSecondFile.trace.drop 1 := by
    have split : [⟨0, 1⟩] ++ inSecondFile.trace.drop 1 = outer ++ inner := trace
    exact (List.append_inj_right' split length.symm).symm
  subst shown
  refine ⟨fits, snippet, eq, nodup, ?_, ?_⟩
  · rw [remarks]
    decide +kernel
  · rw [remarks]
    decide +kernel

end SafetyError

end ObjectInit
