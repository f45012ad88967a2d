import Mathlib.Data.List.TakeDrop
import PluginPack.Manifest.Descriptor
import PluginPack.Proofs.Text.Reading

/-!
# Which line a value comes from

A manifest is read line by line, with the table so far and the section that is open. What comes out
can be said without going through the lines: a line belongs to the section of the last header before
it, and a key of a section has the value of the last line that assigns it there, however often the
section is left and opened again. Sections and keys stand in the order in which they came first.
-/

namespace PluginPack.Manifest

open Text

/-! ## What a line says -/

variable {name key value line : Text}

/-- A line that opens the section of a name. -/
def IsHeader (name line : Text) : Prop :=
  trim line = '[' :: (name ++ [']']) ∧ name ≠ [] ∧ ']' ∉ name

/-- A line that assigns a value to a key: it is no header and no comment, and the key stands in
front of the first equals sign. -/
def IsAssignment (key value line : Text) : Prop :=
  (∀ name, ¬IsHeader name line) ∧ (trim line).head? ≠ some '#' ∧
    ∃ k v, trim line = k ++ '=' :: v ∧ '=' ∉ k ∧ trim k = key ∧ key ≠ [] ∧ unquote (trim v) = value

theorem header?_eq_some_iff {t : Text} :
    header? t = some name ↔ t = '[' :: (name ++ [']']) ∧ name ≠ [] ∧ ']' ∉ name := by
  constructor
  · intro h
    unfold header? at h
    split at h
    · rename_i r
      split at h
      · rename_i hr
        cases h
        exact ⟨congrArg _ (List.dropLast_append_getLast? _ hr.1).symm, hr.2⟩
      · cases h
    · cases h
  · rintro ⟨rfl, hname⟩
    rw [header?, List.getLast?_concat, List.dropLast_concat, if_pos ⟨rfl, hname⟩]

theorem read_eq_header_iff : Line.read line = .header name ↔ IsHeader name line := by
  rw [IsHeader, ← header?_eq_some_iff, Line.read]
  constructor
  · intro h
    split at h
    · cases h
    · split at h
      · rename_i hname
        cases h
        exact hname
      · split at h
        · split at h <;> cases h
        · cases h
  · intro h
    have hbracket : (trim line).head?.all (· == '#') = false := by
      rw [(header?_eq_some_iff.mp h).1]
      rfl
    rw [hbracket, if_neg Bool.false_ne_true, h]

theorem read_eq_assignment_iff :
    Line.read line = .assignment key value ↔ IsAssignment key value line := by
  have hheader : (∀ name, ¬IsHeader name line) ↔ header? (trim line) = none := by
    rw [Option.eq_none_iff_forall_ne_some]
    exact forall_congr' fun name ↦ header?_eq_some_iff.not.symm
  rw [IsAssignment, hheader, Line.read, List.span_eq_takeWhile_dropWhile]
  constructor
  · intro h
    split at h
    · cases h
    · rename_i hcomment
      split at h
      · cases h
      · rename_i hnone
        split at h
        · rename_i k d v hspan
          obtain ⟨rfl, hv⟩ := Prod.mk.inj hspan
          split at h
          · cases h
          · rename_i hkey
            cases h
            refine ⟨hnone, fun hhash ↦ hcomment ?_, _, v, eq_append_of_dropWhile_bne hv,
              not_mem_takeWhile_bne _ _, rfl, hkey, rfl⟩
            rw [hhash]
            rfl
        · cases h
  · rintro ⟨hnone, hhash, k, v, hline, hk, rfl, hkey, rfl⟩
    have hcomment : (trim line).head?.all (· == '#') = false := by
      rw [hline] at hhash ⊢
      cases k with
      | nil => rfl
      | cons c k => simpa using hhash
    rw [hcomment, if_neg Bool.false_ne_true, hnone, hline,
      takeWhile_append_eq (bne_of_not_mem hk) (by simp),
      dropWhile_append_eq (bne_of_not_mem hk) (by simp)]
    exact if_neg hkey

/-! ## Places -/

variable {ls : List Text} {i j : Nat} {g g' : Option Text}

/-- Line `i` opens the section of a name. -/
def HeaderAt (ls : List Text) (name : Text) (i : Nat) : Prop :=
  ∃ line, ls[i]? = some line ∧ IsHeader name line

/-- What stands at line `i` belongs to a section: to the one that the last header before it opens,
and to the root, which is no section, when there is no header before it. -/
def BelongsTo (ls : List Text) (i : Nat) : Option Text → Prop
  | none => ∀ j < i, ∀ name, ¬HeaderAt ls name j
  | some name => ∃ j < i, HeaderAt ls name j ∧ ∀ k, j < k → k < i → ∀ name', ¬HeaderAt ls name' k

/-- Line `i` assigns a value to a key of a section. -/
def AssignedAt (ls : List Text) (g : Option Text) (key value : Text) (i : Nat) : Prop :=
  (∃ line, ls[i]? = some line ∧ IsAssignment key value line) ∧ BelongsTo ls i g

theorem IsHeader.unique {name' : Text} (h : IsHeader name line) (h' : IsHeader name' line) :
    name = name' :=
  Line.header.inj ((read_eq_header_iff.mpr h).symm.trans (read_eq_header_iff.mpr h'))

theorem IsAssignment.unique {k v : Text} (h : IsAssignment key value line)
    (h' : IsAssignment k v line) : k = key ∧ v = value := by
  have hread := (read_eq_assignment_iff.mpr h').symm.trans (read_eq_assignment_iff.mpr h)
  exact ⟨(Line.assignment.inj hread).1, (Line.assignment.inj hread).2⟩

theorem HeaderAt.unique {name' : Text} (h : HeaderAt ls name i) (h' : HeaderAt ls name' i) :
    name = name' := by
  obtain ⟨line, hline, h⟩ := h
  obtain ⟨line', hline', h'⟩ := h'
  obtain rfl := Option.some.inj (hline.symm.trans hline')
  exact h.unique h'

theorem BelongsTo.unique (h : BelongsTo ls i g) (h' : BelongsTo ls i g') : g = g' := by
  match g, g', h, h' with
  | none, none, _, _ => rfl
  | none, some _, h, ⟨j, hj, hheader, _⟩ => exact absurd hheader (h j hj _)
  | some _, none, ⟨j, hj, hheader, _⟩, h => exact absurd hheader (h j hj _)
  | some _, some _, ⟨j, hj, hheader, hbetween⟩, ⟨k, hk, hheader', hbetween'⟩ =>
    rcases Nat.lt_trichotomy j k with hjk | rfl | hkj
    · exact absurd hheader' (hbetween k hjk hk _)
    · rw [hheader.unique hheader']
    · exact absurd hheader (hbetween' j hkj hj _)

theorem getElem?_concat_eq_some_iff {l : Text} :
    (ls ++ [l])[i]? = some line ↔ ls[i]? = some line ∨ i = ls.length ∧ l = line := by
  rcases Nat.lt_trichotomy i ls.length with h | rfl | h
  · rw [List.getElem?_append_left h]
    simp [Nat.ne_of_lt h]
  · simp
  · have hout : ls[i]? = none := List.getElem?_eq_none (Nat.le_of_lt h)
    have hout' : (ls ++ [l])[i]? = none := List.getElem?_eq_none (by simp; omega)
    simp [hout, hout', Nat.ne_of_gt h]

theorem headerAt_concat_iff {l : Text} :
    HeaderAt (ls ++ [l]) name i ↔ HeaderAt ls name i ∨ i = ls.length ∧ IsHeader name l := by
  simp only [HeaderAt, getElem?_concat_eq_some_iff, or_and_right, exists_or, and_assoc]
  simp

theorem HeaderAt.lt_length (h : HeaderAt ls name i) : i < ls.length := by
  obtain ⟨line, hline, -⟩ := h
  exact (List.getElem?_eq_some_iff.mp hline).1

/-- A line belongs where it did, whatever line follows. -/
theorem belongsTo_concat_iff {l : Text} (hi : i ≤ ls.length) :
    BelongsTo (ls ++ [l]) i g ↔ BelongsTo ls i g := by
  have hheader (j : Nat) (hj : j < i) (name : Text) :
      HeaderAt (ls ++ [l]) name j ↔ HeaderAt ls name j := by
    rw [headerAt_concat_iff, or_iff_left]
    rintro ⟨rfl, -⟩
    omega
  match g with
  | none => exact forall₂_congr fun j hj ↦ forall_congr' fun name ↦ (hheader j hj name).not
  | some name =>
    refine exists_congr fun j ↦ and_congr_right fun hj ↦ and_congr (hheader j hj name) ?_
    exact forall₃_congr fun k _ hk ↦ forall_congr' fun name' ↦ (hheader k hk name').not

theorem assignedAt_concat_iff {l : Text} :
    AssignedAt (ls ++ [l]) g key value i ↔ AssignedAt ls g key value i ∨
      i = ls.length ∧ IsAssignment key value l ∧ BelongsTo ls ls.length g := by
  constructor
  · rintro ⟨⟨line, hline, h⟩, hg⟩
    rcases getElem?_concat_eq_some_iff.mp hline with hline | ⟨rfl, rfl⟩
    · have hi := (List.getElem?_eq_some_iff.mp hline).1
      exact .inl ⟨⟨line, hline, h⟩, (belongsTo_concat_iff hi.le).mp hg⟩
    · exact .inr ⟨rfl, h, (belongsTo_concat_iff le_rfl).mp hg⟩
  · rintro (⟨⟨line, hline, h⟩, hg⟩ | ⟨rfl, h, hg⟩)
    · have hi := (List.getElem?_eq_some_iff.mp hline).1
      exact ⟨⟨line, getElem?_concat_eq_some_iff.mpr (.inl hline), h⟩,
        (belongsTo_concat_iff hi.le).mpr hg⟩
    · exact ⟨⟨l, getElem?_concat_eq_some_iff.mpr (.inr ⟨rfl, rfl⟩), h⟩,
        (belongsTo_concat_iff le_rfl).mpr hg⟩

theorem AssignedAt.lt_length (h : AssignedAt ls g key value i) : i < ls.length := by
  obtain ⟨⟨line, hline, -⟩, -⟩ := h
  exact (List.getElem?_eq_some_iff.mp hline).1

/-! ## Entries -/

variable {es : List (Text × Text)}

theorem map_fst_assign (key value : Text) (es : List (Text × Text)) :
    (Section.assign key value es).map Prod.fst =
      if key ∈ es.map Prod.fst then es.map Prod.fst else es.map Prod.fst ++ [key] := by
  induction es with
  | nil => rfl
  | cons e es ih =>
    rw [Section.assign]
    split_ifs with hkey hmem hmem
    · rw [List.map_cons, List.map_cons, hkey]
    · exact absurd (hkey ▸ List.mem_cons_self) hmem
    · rw [List.map_cons, ih, if_pos ((List.mem_cons.mp hmem).resolve_left (Ne.symm hkey)),
        List.map_cons]
    · rw [List.map_cons, ih, if_neg fun h ↦ hmem (List.mem_cons_of_mem _ h), List.map_cons,
        List.cons_append]

theorem lookup_assign (key value k : Text) (es : List (Text × Text)) :
    (Section.assign key value es).lookup k = if k = key then some value else es.lookup k := by
  induction es with
  | nil =>
    rw [Section.assign, List.lookup_cons]
    by_cases hk : k = key
    · rw [hk, if_pos rfl, beq_self_eq_true]
    · rw [if_neg hk, beq_false_of_ne hk, List.lookup_nil]
  | cons e es ih =>
    obtain ⟨k', v'⟩ := e
    rw [Section.assign]
    split_ifs with hkey hk hk
    · rw [hk, List.lookup_cons_self]
    · have hne : (k == k') = false := by simpa [show k' = key from hkey] using hk
      have hne' : (k == key) = false := by simpa using hk
      rw [List.lookup_cons, hne', List.lookup_cons, hne]
    · have hne : (k == k') = false := by simpa [hk] using Ne.symm hkey
      rw [List.lookup_cons, hne, ih, if_pos hk]
    · rw [List.lookup_cons, List.lookup_cons, ih, if_neg hk]

namespace Section

variable {s : Section}

theorem keys_insert (s : Section) (key value : Text) :
    (s.insert key value).entries.map Prod.fst =
      if key ∈ s.entries.map Prod.fst then s.entries.map Prod.fst
      else s.entries.map Prod.fst ++ [key] := map_fst_assign key value s.entries

theorem get?_insert (s : Section) (key value k : Text) :
    (s.insert key value).get? k = if k = key then some value else s.get? k :=
  lookup_assign key value k s.entries

theorem mem_keys_insert_iff {k : Text} : k ∈ (s.insert key value).entries.map Prod.fst ↔
    k ∈ s.entries.map Prod.fst ∨ k = key := by
  rw [keys_insert]
  split_ifs with hin
  · exact (or_iff_left_of_imp fun hk ↦ hk ▸ hin).symm
  · rw [List.mem_append, List.mem_singleton]

theorem nodup_keys_insert (hs : (s.entries.map Prod.fst).Nodup) :
    ((s.insert key value).entries.map Prod.fst).Nodup := by
  rw [keys_insert]
  split_ifs with hin
  · exact hs
  · exact List.nodup_append.mpr ⟨hs, List.pairwise_singleton _ key, fun k hk k' hk' heq ↦
      hin (List.mem_singleton.mp hk' ▸ heq ▸ hk)⟩

end Section

/-- The entries of a section are what is assigned at the places that belong to it: its keys are
those that are assigned anywhere, in the order of their first places, and the value of a key is the
one that is assigned last. -/
structure Section.Holds (s : Section) (assigned : Text → Text → Nat → Prop) : Prop where
  keys : ∀ k ∈ s.entries.map Prod.fst, k ≠ [] ∧ trim k = k ∧ '=' ∉ k
  nodup : (s.entries.map Prod.fst).Nodup
  mem_iff : ∀ k, k ∈ s.entries.map Prod.fst ↔ ∃ v i, assigned k v i
  inOrder : (s.entries.map Prod.fst).Pairwise fun k k' ↦
    ∃ v i, assigned k v i ∧ ∀ w j, assigned k' w j → i < j
  get?_iff : ∀ k v, s.get? k = some v ↔ ∃ i, assigned k v i ∧ ∀ w j, i < j → ¬assigned k w j

namespace Section.Holds

variable {s : Section} {assigned assigned' : Text → Text → Nat → Prop} {n : Nat}

theorem empty (name : Text) (h : ∀ k v i, ¬assigned k v i) :
    (Section.empty name).Holds assigned where
  keys _ hk := absurd hk List.not_mem_nil
  nodup := List.nodup_nil
  mem_iff k := ⟨fun hk ↦ absurd hk List.not_mem_nil, fun ⟨v, i, hi⟩ ↦ absurd hi (h k v i)⟩
  inOrder := List.Pairwise.nil
  get?_iff k v := ⟨nofun, fun ⟨i, hi, _⟩ ↦ absurd hi (h k v i)⟩

theorem congr (hs : s.Holds assigned) (h : ∀ k v i, assigned' k v i ↔ assigned k v i) :
    s.Holds assigned' := by
  obtain rfl : assigned' = assigned := funext₃ fun k v i ↦ propext (h k v i)
  exact hs

/-- Assignments, and one more at place `n`. -/
def AlsoAt (assigned : Text → Text → Nat → Prop) (key value : Text) (n : Nat) (k v : Text)
    (i : Nat) : Prop :=
  assigned k v i ∨ i = n ∧ k = key ∧ v = value

theorem mem_iff_insert (hs : s.Holds assigned) (k : Text) :
    k ∈ (s.insert key value).entries.map Prod.fst ↔ ∃ v i, AlsoAt assigned key value n k v i := by
  rw [mem_keys_insert_iff, hs.mem_iff]
  constructor
  · rintro (⟨v, i, hi⟩ | rfl)
    · exact ⟨v, i, .inl hi⟩
    · exact ⟨value, n, .inr ⟨rfl, rfl, rfl⟩⟩
  · rintro ⟨v, i, hi | ⟨-, rfl, -⟩⟩
    · exact .inl ⟨v, i, hi⟩
    · exact .inr rfl

/-- A key that is new comes first at place `n`, which is behind all others. -/
theorem inOrder_insert (hs : s.Holds assigned) (hbefore : ∀ k v i, assigned k v i → i < n) :
    ((s.insert key value).entries.map Prod.fst).Pairwise fun k k' ↦ ∃ v i,
      AlsoAt assigned key value n k v i ∧ ∀ w j, AlsoAt assigned key value n k' w j → i < j := by
  have hold : (s.entries.map Prod.fst).Pairwise fun k k' ↦ ∃ v i,
      AlsoAt assigned key value n k v i ∧ ∀ w j, AlsoAt assigned key value n k' w j → i < j := by
    refine hs.inOrder.imp ?_
    rintro k k' ⟨v, i, hi, hfirst⟩
    refine ⟨v, i, .inl hi, ?_⟩
    rintro w j (hj | ⟨rfl, -, -⟩)
    · exact hfirst w j hj
    · exact hbefore k v i hi
  rw [keys_insert]
  split_ifs with hin
  · exact hold
  · refine List.pairwise_append.mpr ⟨hold, List.pairwise_singleton _ _, ?_⟩
    intro k hk k' hk'
    obtain rfl := List.mem_singleton.mp hk'
    obtain ⟨v, i, hi⟩ := (hs.mem_iff k).mp hk
    refine ⟨v, i, .inl hi, ?_⟩
    rintro w j (hj | ⟨rfl, -, -⟩)
    · exact absurd ((hs.mem_iff k').mpr ⟨w, j, hj⟩) hin
    · exact hbefore k v i hi

/-- The value at place `n` is the last one of its key. -/
theorem get?_iff_insert (hs : s.Holds assigned) (hbefore : ∀ k v i, assigned k v i → i < n)
    (k v : Text) : (s.insert key value).get? k = some v ↔
      ∃ i, AlsoAt assigned key value n k v i ∧
        ∀ w j, i < j → ¬AlsoAt assigned key value n k w j := by
  rw [get?_insert]
  split_ifs with hk
  · subst hk
    constructor
    · intro hv
      refine ⟨n, .inr ⟨rfl, rfl, (Option.some.inj hv).symm⟩, ?_⟩
      rintro w j hj (hj' | ⟨rfl, -, -⟩)
      · exact absurd (hbefore k w j hj') (Nat.not_lt.mpr hj.le)
      · exact absurd hj (Nat.lt_irrefl _)
    · rintro ⟨i, hi | ⟨-, -, rfl⟩, hlast⟩
      · exact absurd (.inr ⟨rfl, rfl, rfl⟩) (hlast value n (hbefore k v i hi))
      · rfl
  · rw [hs.get?_iff]
    simp only [AlsoAt, hk, false_and, and_false, or_false]

theorem insert (hs : s.Holds assigned) (hkey : key ≠ [] ∧ trim key = key ∧ '=' ∉ key)
    (hbefore : ∀ k v i, assigned k v i → i < n) :
    (s.insert key value).Holds (AlsoAt assigned key value n) where
  keys k hk := (mem_keys_insert_iff.mp hk).elim (hs.keys k) fun heq ↦ heq ▸ hkey
  nodup := nodup_keys_insert hs.nodup
  mem_iff := hs.mem_iff_insert
  inOrder := hs.inOrder_insert hbefore
  get?_iff := hs.get?_iff_insert hbefore

end Section.Holds

/-! ## Tables -/

/-- A table says what the lines of a manifest say. Its sections are those that are opened anywhere,
in the order of their first headers, and every section and the root hold what is assigned in
them. -/
structure Table.Follows (t : Table) (ls : List Text) : Prop where
  names : ∀ name ∈ t.sections.map Section.name, name ≠ [] ∧ ']' ∉ name
  nodup : (t.sections.map Section.name).Nodup
  mem_iff : ∀ name, name ∈ t.sections.map Section.name ↔ ∃ i, HeaderAt ls name i
  inOrder : (t.sections.map Section.name).Pairwise fun name name' ↦
    ∃ i, HeaderAt ls name i ∧ ∀ j, HeaderAt ls name' j → i < j
  root : t.root.Holds (AssignedAt ls none)
  sections : ∀ s ∈ t.sections, s.Holds (AssignedAt ls (some s.name))

theorem IsAssignment.trimmed (h : IsAssignment key value line) :
    key ≠ [] ∧ trim key = key ∧ '=' ∉ key := by
  obtain ⟨-, -, k, v, -, hk, rfl, hne, -⟩ := h
  exact ⟨hne, trim_trim k, fun hmem ↦ hk ((trim_isInfix k).subset hmem)⟩

/-- Places up to a line that is no assignment. -/
theorem assignedAt_concat_of_not {l : Text} (hl : ∀ key value, ¬IsAssignment key value l)
    (k v : Text) (i : Nat) : AssignedAt (ls ++ [l]) g k v i ↔ AssignedAt ls g k v i := by
  rw [assignedAt_concat_iff, or_iff_left]
  exact fun h ↦ hl k v h.2.1

theorem headerAt_concat_of_not {l : Text} (hl : ∀ name, ¬IsHeader name l) (name : Text) (i : Nat) :
    HeaderAt (ls ++ [l]) name i ↔ HeaderAt ls name i := by
  rw [headerAt_concat_iff, or_iff_left]
  exact fun h ↦ hl name h.2

/-- Behind a header its section is open, behind any other line the one that was. -/
theorem belongsTo_concat_header {l : Text} (hl : IsHeader name l) :
    BelongsTo (ls ++ [l]) (ls.length + 1) (some name) :=
  ⟨ls.length, Nat.lt_succ_self _, headerAt_concat_iff.mpr (.inr ⟨rfl, hl⟩), fun k hk hk' ↦ by omega⟩

theorem belongsTo_concat_of_not {l : Text} (hl : ∀ name, ¬IsHeader name l)
    (h : BelongsTo ls ls.length g) : BelongsTo (ls ++ [l]) (ls.length + 1) g := by
  match g, h with
  | none, h =>
    intro j hj name hheader
    have hold := (headerAt_concat_of_not hl name j).mp hheader
    exact h j hold.lt_length name hold
  | some name, ⟨j, hj, hheader, hbetween⟩ =>
    refine ⟨j, hj.trans (Nat.lt_succ_self _), (headerAt_concat_of_not hl name j).mpr hheader, ?_⟩
    intro k hjk _ name' hheader'
    have hold := (headerAt_concat_of_not hl name' k).mp hheader'
    exact hbetween k hjk hold.lt_length name' hold

namespace Table.Follows

variable {t : Table} {l : Text}

/-- A line that is no header neither adds a section nor moves one. -/
theorem of_not_header {t' : Table} (h : t.Follows ls) (hl : ∀ name, ¬IsHeader name l)
    (hnames : t'.sections.map Section.name = t.sections.map Section.name)
    (hroot : t'.root.Holds (AssignedAt (ls ++ [l]) none))
    (hsections : ∀ s ∈ t'.sections, s.Holds (AssignedAt (ls ++ [l]) (some s.name))) :
    t'.Follows (ls ++ [l]) where
  names := hnames ▸ h.names
  nodup := hnames ▸ h.nodup
  mem_iff name := by simp only [hnames, h.mem_iff, headerAt_concat_of_not hl]
  inOrder := by simpa only [hnames, headerAt_concat_of_not hl] using h.inOrder
  root := hroot
  sections := hsections

theorem other (h : t.Follows ls) (hheader : ∀ name, ¬IsHeader name l)
    (hassignment : ∀ key value, ¬IsAssignment key value l) : t.Follows (ls ++ [l]) :=
  h.of_not_header hheader rfl (h.root.congr (assignedAt_concat_of_not hassignment))
    fun s hs ↦ (h.sections s hs).congr (assignedAt_concat_of_not hassignment)

theorem map_name_insert (t : Table) (g : Option Text) (key value : Text) :
    (t.insert g key value).sections.map Section.name = t.sections.map Section.name := by
  cases g with
  | none => rfl
  | some name =>
    rw [Table.insert, List.map_map]
    refine List.map_congr_left fun s _ ↦ ?_
    rw [Function.comp_apply]
    split_ifs <;> rfl

theorem assignment (h : t.Follows ls) (hg : BelongsTo ls ls.length g)
    (hl : IsAssignment key value l) : (t.insert g key value).Follows (ls ++ [l]) := by
  -- The section that is open gains an assignment, and no other section does.
  have hopen {s : Section} (hs : s.Holds (AssignedAt ls g)) :
      (s.insert key value).Holds (AssignedAt (ls ++ [l]) g) := by
    refine (hs.insert hl.trimmed fun _ _ _ hi ↦ hi.lt_length).congr fun k v i ↦ ?_
    rw [assignedAt_concat_iff]
    refine or_congr_right (and_congr_right fun _ ↦ ?_)
    exact ⟨fun h' ↦ hl.unique h'.1, fun h' ↦ by rw [h'.1, h'.2]; exact ⟨hl, hg⟩⟩
  have hother {s : Section} {g' : Option Text} (hs : s.Holds (AssignedAt ls g')) (hne : g' ≠ g) :
      s.Holds (AssignedAt (ls ++ [l]) g') := by
    refine hs.congr fun k v i ↦ ?_
    rw [assignedAt_concat_iff, or_iff_left]
    exact fun h' ↦ hne (h'.2.2.unique hg)
  refine h.of_not_header hl.1 (map_name_insert t g key value) ?_ ?_
  · cases g with
    | none => exact hopen h.root
    | some name => exact hother h.root nofun
  · intro s hs
    cases g with
    | none => exact hother (h.sections s hs) nofun
    | some name =>
      obtain ⟨s, hmem, rfl⟩ := List.mem_map.mp hs
      split_ifs with hname
      · exact hname ▸ hopen (hname ▸ h.sections s hmem)
      · exact hother (h.sections s hmem) fun heq ↦ hname (Option.some.inj heq)

/-- The sections that there were stand in their order when a header follows. -/
theorem inOrder_concat (h : t.Follows ls) (l : Text) :
    (t.sections.map Section.name).Pairwise fun name name' ↦
      ∃ i, HeaderAt (ls ++ [l]) name i ∧ ∀ j, HeaderAt (ls ++ [l]) name' j → i < j := by
  refine h.inOrder.imp ?_
  rintro name name' ⟨i, hi, hfirst⟩
  refine ⟨i, headerAt_concat_iff.mpr (.inl hi), fun j hj ↦ ?_⟩
  rcases headerAt_concat_iff.mp hj with hj | ⟨rfl, -⟩
  · exact hfirst j hj
  · exact hi.lt_length

theorem header_reopened (h : t.Follows ls) (hl : IsHeader name l)
    (hmem : name ∈ t.sections.map Section.name) : t.Follows (ls ++ [l]) where
  names := h.names
  nodup := h.nodup
  mem_iff name' := by
    simp only [h.mem_iff, headerAt_concat_iff, exists_or, exists_eq_left]
    refine (or_iff_left_of_imp fun hl' ↦ ?_).symm
    rw [hl'.unique hl]
    exact (h.mem_iff name).mp hmem
  inOrder := h.inOrder_concat l
  root := h.root.congr (assignedAt_concat_of_not fun _ _ h' ↦ h'.1 name hl)
  sections s hs := (h.sections s hs).congr (assignedAt_concat_of_not fun _ _ h' ↦ h'.1 name hl)

theorem not_headerAt (h : t.Follows ls) (hnew : name ∉ t.sections.map Section.name) (i : Nat) :
    ¬HeaderAt ls name i := fun hi ↦ hnew ((h.mem_iff name).mpr ⟨i, hi⟩)

theorem map_name_concat (t : Table) (name : Text) :
    (t.sections ++ [Section.empty name]).map Section.name = t.sections.map Section.name ++ [name] :=
  List.map_append

theorem inOrder_new (h : t.Follows ls) (hnew : name ∉ t.sections.map Section.name) (l : Text) :
    ((t.sections ++ [Section.empty name]).map Section.name).Pairwise fun name name' ↦
      ∃ i, HeaderAt (ls ++ [l]) name i ∧ ∀ j, HeaderAt (ls ++ [l]) name' j → i < j := by
  rw [map_name_concat]
  refine List.pairwise_append.mpr ⟨h.inOrder_concat l, List.pairwise_singleton _ name, ?_⟩
  intro name' hname' _ hlast
  obtain rfl := List.mem_singleton.mp hlast
  obtain ⟨i, hi⟩ := (h.mem_iff name').mp hname'
  refine ⟨i, headerAt_concat_iff.mpr (.inl hi), fun j hj ↦ ?_⟩
  rcases headerAt_concat_iff.mp hj with hj | ⟨rfl, -⟩
  · exact absurd hj (h.not_headerAt hnew j)
  · exact hi.lt_length

/-- A section that is opened for the first time is empty and comes last. -/
theorem header_new (h : t.Follows ls) (hl : IsHeader name l)
    (hnew : name ∉ t.sections.map Section.name) :
    Table.Follows { t with sections := t.sections ++ [.empty name] } (ls ++ [l]) where
  names name' hname' := by
    rcases List.mem_append.mp (map_name_concat t name ▸ hname') with hname' | hname'
    · exact h.names name' hname'
    · exact List.mem_singleton.mp hname' ▸ hl.2
  nodup := by
    rw [map_name_concat]
    exact List.nodup_append.mpr ⟨h.nodup, List.pairwise_singleton _ name,
      fun name' hname' _ hlast heq ↦ hnew (List.mem_singleton.mp hlast ▸ heq ▸ hname')⟩
  mem_iff name' := by
    simp only [map_name_concat, List.mem_append, h.mem_iff, headerAt_concat_iff, exists_or,
      exists_eq_left, List.mem_singleton]
    exact or_congr_right ⟨fun heq ↦ heq ▸ hl, fun hl' ↦ hl'.unique hl⟩
  inOrder := h.inOrder_new hnew l
  root := h.root.congr (assignedAt_concat_of_not fun _ _ h' ↦ h'.1 name hl)
  sections s hs := by
    have hkept (k v : Text) (i : Nat) : AssignedAt (ls ++ [l]) (some s.name) k v i ↔
        AssignedAt ls (some s.name) k v i :=
      assignedAt_concat_of_not (fun _ _ h' ↦ h'.1 name hl) k v i
    rcases List.mem_append.mp hs with hs | hs
    · exact (h.sections s hs).congr hkept
    · obtain rfl := List.mem_singleton.mp hs
      refine .empty name fun k v i hi ↦ ?_
      obtain ⟨-, j, -, hheader, -⟩ := (hkept k v i).mp hi
      exact h.not_headerAt hnew j hheader

theorem header (h : t.Follows ls) (hl : IsHeader name l) :
    (t.openSection name).Follows (ls ++ [l]) := by
  have hany : t.sections.any (·.name = name) = true ↔ name ∈ t.sections.map Section.name := by
    simp
  rw [Table.openSection]
  split_ifs with hmem
  · exact h.header_reopened hl (hany.mp hmem)
  · exact h.header_new hl fun hin ↦ hmem (hany.mpr hin)

/-- **One line.** -/
theorem step (h : t.Follows ls) (hg : BelongsTo ls ls.length g) (l : Text) :
    (Line.apply (t, g) (.read l)).1.Follows (ls ++ [l]) ∧
      BelongsTo (ls ++ [l]) (ls ++ [l]).length (Line.apply (t, g) (.read l)).2 := by
  rw [List.length_append, List.length_singleton]
  cases hread : Line.read l with
  | header name =>
    have hl := read_eq_header_iff.mp hread
    exact ⟨h.header hl, belongsTo_concat_header hl⟩
  | assignment key value =>
    have hl := read_eq_assignment_iff.mp hread
    exact ⟨h.assignment hg hl, belongsTo_concat_of_not hl.1 hg⟩
  | other =>
    have hheader : ∀ name, ¬IsHeader name l := fun name hl ↦ by
      cases hread.symm.trans (read_eq_header_iff.mpr hl)
    have hassignment : ∀ key value, ¬IsAssignment key value l := fun key value hl ↦ by
      cases hread.symm.trans (read_eq_assignment_iff.mpr hl)
    exact ⟨h.other hheader hassignment, belongsTo_concat_of_not hheader hg⟩

theorem empty : Table.empty.Follows [] where
  names _ hname := absurd hname List.not_mem_nil
  nodup := List.nodup_nil
  mem_iff _ := ⟨fun h ↦ absurd h List.not_mem_nil,
    fun ⟨_, hi⟩ ↦ absurd hi.lt_length (Nat.not_lt_zero _)⟩
  inOrder := List.Pairwise.nil
  root := .empty [] fun _ _ _ hi ↦ Nat.not_lt_zero _ hi.lt_length
  sections _ hs := absurd hs List.not_mem_nil

/-- **All lines.** -/
theorem run (ls : List Text) :
    ((ls.map Line.read).foldl Line.apply (.empty, none)).1.Follows ls ∧
      BelongsTo ls ls.length ((ls.map Line.read).foldl Line.apply (.empty, none)).2 := by
  induction ls using List.reverseRecOn with
  | nil => exact ⟨empty, fun j hj ↦ absurd hj (Nat.not_lt_zero j)⟩
  | append_singleton ls l ih =>
    rw [List.map_append, List.map_singleton, List.foldl_append, List.foldl_cons, List.foldl_nil]
    exact ih.1.step ih.2 l

end Table.Follows

/-! ## The section of a package -/

theorem isHeader_packageSection_iff :
    IsHeader packageSection line ↔ trim line = "[package]".toList :=
  and_iff_left (by decide)

theorem parse_eq_error_iff {content : Text} :
    (∃ e, Descriptor.parse content = .error e) ↔
      packageSection ∉ (Table.parse content).sections.map Section.name := by
  rw [Descriptor.parse]
  cases hfind : (Table.parse content).section? packageSection with
  | none =>
    refine iff_of_true ⟨_, rfl⟩ fun hmem ↦ ?_
    obtain ⟨s, hs, hname⟩ := List.mem_map.mp hmem
    exact absurd hname (by simpa using List.find?_eq_none.mp hfind s hs)
  | some s =>
    refine iff_of_false nofun (not_not_intro (List.mem_map.mpr ⟨s, ?_, ?_⟩))
    · exact List.mem_of_find?_eq_some hfind
    · simpa using List.find?_some hfind

/-- **What a manifest says.** The sections of a manifest are those that its lines open, and each of
them and the root hold exactly what is assigned in them, the last value of each key. A descriptor is
read unless no line opens the section of the package. -/
theorem parse_follows_lines (content : Text) :
    (Table.parse content).Follows (lines content) ∧
      ((∃ e, Descriptor.parse content = .error e) ↔
        ∀ line ∈ lines content, trim line ≠ "[package]".toList) := by
  have h : (Table.parse content).Follows (lines content) := (Table.Follows.run (lines content)).1
  refine ⟨h, ?_⟩
  rw [parse_eq_error_iff, h.mem_iff, not_exists]
  constructor
  · intro hnone line hline htrim
    obtain ⟨i, hi⟩ := List.mem_iff_getElem?.mp hline
    exact hnone i ⟨line, hi, isHeader_packageSection_iff.mpr htrim⟩
  · rintro hnone i ⟨line, hi, hheader⟩
    exact hnone line (List.mem_of_getElem? hi) (isHeader_packageSection_iff.mp hheader)

/-- A section that comes again, with a value that is given again and a line that is no header. -/
example :
    (Table.parse "k = 0\n[a]\nk = 1\nl = 2\n[b]\n[a]\nk = '3'\n[c]d = 4\n".toList).sections =
      [⟨['a'], [(['k'], ['3']), (['l'], ['2']), ("[c]d".toList, ['4'])]⟩, ⟨['b'], []⟩] := by
  decide +kernel

end PluginPack.Manifest
