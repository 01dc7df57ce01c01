/-
  Panthera.Dyld.IndexScan — the symbol index against the scan it stands for, over every
  sequence of registrations and lookups.

  An image's definitions are entered in order until the table is full; from then on
  nothing is entered, and a lookup that finds no entry scans. `enteredDefs` says which
  definitions were entered, from the images in the order of their first lookups, and
  every reachable index holds the choice among these (`run_tracks`).

  Proved: a lookup answers as the scan does exactly when it has no entry for the name,
  or a strong definition was entered, or all are weak and the first has an address
  (`findSymbolInImage_eq_scan_iff`).
-/

import Panthera.Lib.Run
import Panthera.Dyld.SymbolIndex

namespace Panthera.Dyld

open MachO Lib.OpenTable

/-! ## What is entered -/

/-- The definitions that are entered while fewer than `room` names are; `seen` are the
    names entered before. -/
def entered (room : Nat) : List CStr → List (CStr × Sym) → List (CStr × Sym)
  | _, [] => []
  | seen, d :: ds => if seen.length < room then d :: entered room (seen.insert d.1) ds else []

/-- The names of `seen` and `ds`, each once. -/
def namesFrom (seen : List CStr) (ds : List (CStr × Sym)) : List CStr := ds.foldl (fun seen d => seen.insert d.1) seen

def nameCount (ds : List (CStr × Sym)) : Nat := (namesFrom [] ds).length

/-- The slots that the images of `order` would take. -/
def demand (imgs : List LoadedImage) (order : List Nat) : Nat := (order.map fun i => nameCount (defsOf imgs i)).sum

/-- The definitions of image `i` that are in the index, once the images of `order` have
    been looked up, in this order. -/
def enteredDefs (imgs : List LoadedImage) (order : List Nat) (i : Nat) : List (CStr × Sym) :=
  if i ∈ order then entered (symbolIndexCapacity - demand imgs (order.take (order.idxOf i))) [] (defsOf imgs i) else []

/-- Some definition found the table full. -/
def Overflowed (imgs : List LoadedImage) (order : List Nat) : Prop := ∃ i ∈ order, enteredDefs imgs order i ≠ defsOf imgs i

section Entered

variable {room : Nat}

theorem entered_isPrefix : ∀ (ds : List (CStr × Sym)) (seen : List CStr), entered room seen ds <+: ds := by
  intro ds
  induction ds with
  | nil => intro seen; exact List.prefix_rfl
  | cons d ds ih =>
    intro seen
    unfold entered
    split
    · exact List.prefix_cons_inj d |>.mpr (ih _)
    · exact List.nil_prefix

theorem length_namesFrom : ∀ (ds : List (CStr × Sym)) (seen : List CStr), seen.length ≤ (namesFrom seen ds).length := by
  intro ds
  induction ds with
  | nil => intro seen; exact Nat.le_refl _
  | cons d ds ih => exact fun seen => Nat.le_trans (List.length_le_length_insert) (ih (seen.insert d.1))

/-- What is not entered has found no room. -/
theorem entered_ne : ∀ {ds : List (CStr × Sym)} {seen : List CStr}, entered room seen ds ≠ ds →
    room ≤ (namesFrom seen ds).length := by
  intro ds
  induction ds with
  | nil => intro seen h; exact absurd rfl h
  | cons d ds ih =>
    intro seen h
    unfold entered at h
    split at h
    · exact ih fun heq => h (by rw [heq])
    · have := length_namesFrom (d :: ds) seen
      omega

/-- New names are all entered while there is room. -/
theorem entered_append_of_fresh : ∀ (ds : List (CStr × Sym)) {seen : List CStr} (more : List (CStr × Sym)),
    (seen ++ ds.map (·.1)).Nodup → seen.length + ds.length ≤ room →
    ∃ seen', seen'.length = seen.length + ds.length ∧ entered room seen (ds ++ more) = ds ++ entered room seen' more := by
  intro ds
  induction ds with
  | nil => intro seen more _ _; exact ⟨seen, rfl, rfl⟩
  | cons d ds ih =>
    intro seen more hnodup hroom
    rw [List.length_cons] at hroom
    have hfresh : d.1 ∉ seen := fun h => (List.nodup_append.mp hnodup).2.2 _ h _ (by simp) rfl
    have hins : seen.insert d.1 = d.1 :: seen := List.insert_of_not_mem hfresh
    have hperm : (seen ++ (d :: ds).map (·.1)).Perm (d.1 :: seen ++ ds.map (·.1)) := List.perm_middle
    obtain ⟨seen', hlen, heq⟩ := ih more (hperm.nodup_iff.mp hnodup) (by simp; omega)
    refine ⟨seen', by simp at hlen ⊢; omega, ?_⟩
    rw [List.cons_append, entered, if_pos (by omega), hins, heq]
    rfl

end Entered

section Order

variable {imgs : List LoadedImage} {order : List Nat} {i j : Nat}

theorem enteredDefs_append_of_mem (hj : j ∈ order) : enteredDefs imgs (order ++ [i]) j = enteredDefs imgs order j := by
  have hlt := List.idxOf_lt_length_of_mem hj
  unfold enteredDefs
  rw [List.idxOf_append_of_mem hj, List.take_append_of_le_length (Nat.le_of_lt hlt)]
  simp [hj]

theorem enteredDefs_append_self (hi : i ∉ order) : enteredDefs imgs (order ++ [i]) i =
    entered (symbolIndexCapacity - demand imgs order) [] (defsOf imgs i) := by
  unfold enteredDefs
  rw [List.idxOf_append_of_notMem hi]
  simp

theorem enteredDefs_of_not_mem (hi : i ∉ order) : enteredDefs imgs order i = [] := if_neg hi

theorem enteredDefs_isPrefix : enteredDefs imgs order i <+: defsOf imgs i := by
  unfold enteredDefs
  split
  · exact entered_isPrefix _ _
  · exact List.nil_prefix

theorem demand_append : demand imgs (order ++ [i]) = demand imgs order + nameCount (defsOf imgs i) := by
  simp [demand]

/-- Looking up one more image leaves what is entered of the others. -/
theorem overflowed_append : Overflowed imgs (order ++ [i]) ↔
    Overflowed imgs order ∨ enteredDefs imgs (order ++ [i]) i ≠ defsOf imgs i := by
  constructor
  · rintro ⟨j, hj, h⟩
    rcases List.mem_append.mp hj with hj | hj
    · rw [enteredDefs_append_of_mem hj] at h
      exact .inl ⟨j, hj, h⟩
    · rw [List.mem_singleton.mp hj] at h
      exact .inr h
  · rintro (⟨j, hj, h⟩ | h)
    · exact ⟨j, List.mem_append_left _ hj, by rwa [enteredDefs_append_of_mem hj]⟩
    · exact ⟨i, by simp, h⟩

variable (img : LoadedImage)

/-- Registering an image changes nothing of those registered. -/
theorem defsOf_append (hi : i < imgs.length) : defsOf (imgs ++ [img]) i = defsOf imgs i := by
  rw [defsOf, defsOf, List.getElem?_append_left hi]

theorem demand_register (h : ∀ i ∈ order, i < imgs.length) : demand (imgs ++ [img]) order = demand imgs order := by
  unfold demand
  rw [List.map_congr_left fun i hi => by rw [defsOf_append img (h i hi)]]

theorem enteredDefs_register (h : ∀ i ∈ order, i < imgs.length) (i : Nat) :
    enteredDefs (imgs ++ [img]) order i = enteredDefs imgs order i := by
  unfold enteredDefs
  split
  · rename_i hi
    rw [demand_register img fun j hj => h j (List.mem_of_mem_take hj), defsOf_append img (h i hi)]
  · rfl

end Order

/-! ## Entering one image -/

variable {i : Nat} {ix : SymbolIndex} {imgs : List LoadedImage} {name : CStr} {ss : List Sym} {img : LoadedImage}

/-- The loop of `symbolIndexImage`, with `base` slots taken by other images: it enters
    what there is room for and then stops. -/
theorem insertAll_entered {base room : Nat} (hcap : base + room = symbolIndexCapacity) : ∀ (ds : List (CStr × Sym))
    {seen : List CStr} {ix : SymbolIndex}, TableOk ix → ix.used = base + seen.length →
    (∀ n, (ix.get (i, n)).isSome ↔ n ∈ seen) →
    (∀ n, (insertAll i ds ix).get (i, n) = bestFrom n (ix.get (i, n)) (entered room seen ds)) ∧
    (∀ j n, j ≠ i → (insertAll i ds ix).get (j, n) = ix.get (j, n)) ∧
    ((insertAll i ds ix).overflow = true ↔ entered room seen ds ≠ ds) ∧
    (entered room seen ds = ds →
      TableOk (insertAll i ds ix) ∧ (insertAll i ds ix).used = base + (namesFrom seen ds).length) := by
  intro ds
  induction ds with
  | nil =>
    intro seen ix ok hused hseen
    refine ⟨fun _ => rfl, fun _ _ _ => rfl, ?_, fun _ => ⟨ok, hused⟩⟩
    simp [insertAll, entered, ok.quiet]
  | cons d ds ih =>
    intro seen ix ok hused hseen
    by_cases hroom : seen.length < room
    · obtain ⟨ix', hins, ok', hused', hindexed, hget, hother⟩ := symbolIndexInsert_spec ok (by omega) i d.1 d.2
      have hseen' : ∀ n, (ix'.get (i, n)).isSome ↔ n ∈ seen.insert d.1 := by
        intro n
        rw [List.mem_insert_iff]
        by_cases hn : n = d.1
        · subst hn
          obtain ⟨e, he⟩ := merge_isSome (ix.get (i, d.1)) d.2
          simp [hget, he]
        · rw [hother _ fun h => hn (congrArg Prod.snd h), hseen n]
          simp [hn]
      have hcount : ix'.used = base + (seen.insert d.1).length := by
        rw [hused', hused]
        by_cases hd : d.1 ∈ seen
        · rw [if_pos ((hseen d.1).mpr hd), List.insert_of_mem hd]
        · rw [if_neg fun h => hd ((hseen d.1).mp h), List.insert_of_not_mem hd]
          simp
          omega
      obtain ⟨h1, h2, h3, h4⟩ := ih ok' hcount hseen'
      simp only [insertAll, hins, entered, if_pos hroom]
      refine ⟨fun n => ?_, fun j n hj => ?_, ?_, fun h => ?_⟩
      · rw [h1, bestFrom_cons]
        by_cases hn : d.1 = n
        · rw [if_pos hn, ← hn, hget]
        · rw [if_neg hn, hother _ fun h => hn (congrArg Prod.snd h).symm]
      · rw [h2 j n hj, hother _ fun h => hj (congrArg Prod.fst h)]
      · rw [h3]
        simp
      · exact h4 (List.cons_inj_right d |>.mp h)
    · -- the table is full
      have hins : symbolIndexInsert ix i d.1 d.2 = (false, { ix with overflow := true }) := by
        rw [symbolIndexInsert, if_pos (.inr (by omega))]
      simp only [insertAll, hins, entered, if_neg hroom]
      exact ⟨fun _ => rfl, fun _ _ _ => rfl, by simp, fun h => absurd h (by simp)⟩

/-! ## Registrations and lookups -/

/-- The index holds what was entered of the images in the order they were indexed. -/
structure Tracks (imgs : List LoadedImage) (ix : SymbolIndex) : Prop where
  bounded : imgs.length ≤ maxImages
  known : ∀ i ∈ ix.indexed, i < imgs.length
  exact : ∀ i n, ix.get (i, n) = best (enteredDefs imgs ix.indexed i) n
  flag : ix.overflow = true ↔ Overflowed imgs ix.indexed
  full : ix.overflow = true → symbolIndexCapacity ≤ demand imgs ix.indexed
  table : ix.overflow = false → TableOk ix ∧ ix.used = demand imgs ix.indexed

theorem TableOk.used_le (ok : TableOk ix) : ix.used ≤ symbolIndexCapacity := by
  rw [← ok.count]
  exact taken_le

theorem tracks_empty : Tracks [] SymbolIndex.empty where
  bounded := Nat.zero_le _
  known := by simp [SymbolIndex.empty]
  exact i n := by
    rw [(indexOk_empty []).exact i n, enteredDefs_of_not_mem (by simp [SymbolIndex.empty])]
    simp [SymbolIndex.empty, best, bestFrom]
  flag := by simp [SymbolIndex.empty, Overflowed]
  full h := by simp [SymbolIndex.empty] at h
  table _ := ⟨(indexOk_empty []).toTableOk, rfl⟩

theorem Tracks.register (h : Tracks imgs ix) (img : LoadedImage)
    (hroom : imgs.length < maxImages) : Tracks (imgs ++ [img]) ix where
  bounded := by simp; omega
  known i hi := by have := h.known i hi; simp; omega
  exact i n := by rw [h.exact, enteredDefs_register img h.known]
  flag := by
    rw [h.flag]
    refine exists_congr fun i => and_congr_right fun hi => ?_
    rw [enteredDefs_register img h.known, defsOf_append img (h.known i hi)]
  full ho := by
    rw [demand_register img h.known]
    exact h.full ho
  table ho := by
    rw [demand_register img h.known]
    exact h.table ho

/-- The images looked up, in order, once `i` has been. -/
def asked (order : List Nat) (i : Nat) : List Nat := if i ∈ order then order else order ++ [i]

theorem symbolIndexImage_tracks (h : Tracks imgs ix)
    (hi : i < imgs.length) : Tracks imgs (symbolIndexImage imgs i ix) ∧
      (symbolIndexImage imgs i ix).indexed = asked ix.indexed i := by
  unfold symbolIndexImage asked
  by_cases hin : i ∈ ix.indexed
  · rw [if_pos hin, if_pos hin]
    exact ⟨h, rfl⟩
  have hmark := mark_indexed (Nat.lt_of_lt_of_le hi h.bounded) hin
  have hknown : ∀ j ∈ ix.indexed ++ [i], j < imgs.length := by
    intro j hj
    rcases List.mem_append.mp hj with hj | hj
    · exact h.known j hj
    · rwa [List.mem_singleton.mp hj]
  rw [if_neg hin, if_neg hin]
  by_cases ho : ix.overflow = true
  · -- nothing more is entered
    rw [if_pos ho]
    have hnone : enteredDefs imgs (ix.indexed ++ [i]) i = [] := by
      rw [enteredDefs_append_self hin, Nat.sub_eq_zero_of_le (h.full ho)]
      cases defsOf imgs i <;> rfl
    refine ⟨⟨h.bounded, by rwa [hmark], fun j n => ?_, ?_, fun _ => ?_, fun hq => by simp [ho] at hq⟩, hmark⟩
    · rw [mark_get, h.exact, hmark]
      by_cases hj : j ∈ ix.indexed
      · rw [enteredDefs_append_of_mem hj]
      · rw [enteredDefs_of_not_mem hj]
        by_cases hji : j = i
        · rw [hji, hnone]
        · rw [enteredDefs_of_not_mem (by simp [hj, hji])]
    · rw [mark_overflow, hmark, overflowed_append]
      exact iff_of_true ho (.inl (h.flag.mp ho))
    · rw [hmark, demand_append]
      have := h.full ho
      omega
  · have hq : ix.overflow = false := by simpa using ho
    obtain ⟨ok, hused⟩ := h.table hq
    rw [if_neg ho]
    have ok' : TableOk (ix.mark i) := ⟨by simp [hq], by simp [ok.probed], by simp [ok.count]⟩
    have hnew : ∀ n, ((ix.mark i).get (i, n)).isSome ↔ n ∈ ([] : List CStr) := by
      intro n
      rw [mark_get, h.exact, enteredDefs_of_not_mem hin]
      simp [best, bestFrom]
    have hle := ok.used_le
    have hcap : demand imgs ix.indexed + (symbolIndexCapacity - demand imgs ix.indexed) = symbolIndexCapacity := by omega
    obtain ⟨h1, h2, h3, h4⟩ := insertAll_entered hcap (defsOf imgs i) ok' (by simpa using hused) hnew
    have hself : entered (symbolIndexCapacity - demand imgs ix.indexed) [] (defsOf imgs i) =
        enteredDefs imgs (ix.indexed ++ [i]) i := (enteredDefs_append_self hin).symm
    have hindexed : (insertAll i (defsOf imgs i) (ix.mark i)).indexed = ix.indexed ++ [i] := by
      rw [insertAll_indexed, hmark]
    have hquiet : ¬ Overflowed imgs ix.indexed := fun hov => ho (h.flag.mpr hov)
    have hflag : (insertAll i (defsOf imgs i) (ix.mark i)).overflow = true ↔ Overflowed imgs (ix.indexed ++ [i]) := by
      rw [h3, overflowed_append, or_iff_right hquiet, hself]
    refine ⟨⟨h.bounded, by rwa [hindexed], fun j n => ?_, by rwa [hindexed], fun hov => ?_, fun hov => ?_⟩, hindexed⟩
    · rw [hindexed]
      by_cases hji : j = i
      · subst hji
        rw [h1, hself, mark_get, h.exact, enteredDefs_of_not_mem hin]
        rfl
      · rw [h2 j n hji, mark_get, h.exact]
        by_cases hj : j ∈ ix.indexed
        · rw [enteredDefs_append_of_mem hj]
        · rw [enteredDefs_of_not_mem hj, enteredDefs_of_not_mem (by simp [hj, hji])]
    · have := entered_ne (h3.mp hov)
      rw [hindexed, demand_append]
      unfold nameCount
      omega
    · obtain ⟨hok, hu⟩ := h4 (by
        by_contra hne
        rw [h3.mpr hne] at hov
        cases hov)
      rw [hindexed, demand_append]
      exact ⟨hok, hu⟩

/-- The image table and the index, and what is done to them. -/
structure Searched where
  images : List LoadedImage
  index : SymbolIndex

inductive SearchOp where
  | register (img : LoadedImage)
  | find (i : Nat) (name : CStr) (includeLocals : Bool)

def Searched.step (s : Searched) : SearchOp → Searched
  | .register img => if s.images.length < maxImages then { s with images := s.images ++ [img] } else s
  | .find i name includeLocals =>
    if i < s.images.length then { s with index := (findSymbolInImage s.images i name includeLocals s.index).2 } else s

def Searched.run (ops : List SearchOp) : Searched := ops.foldl Searched.step ⟨[], SymbolIndex.empty⟩

theorem step_tracks {s : Searched} (h : Tracks s.images s.index) (op : SearchOp) :
    Tracks (s.step op).images (s.step op).index := by
  cases op with
  | register img =>
    unfold Searched.step
    dsimp only
    split
    · rename_i hroom
      exact h.register img hroom
    · exact h
  | find i name includeLocals =>
    unfold Searched.step
    dsimp only
    split
    · rename_i hi
      cases includeLocals with
      | true => exact h
      | false =>
        dsimp only
        rw [findSymbolInImage_index]
        exact (symbolIndexImage_tracks h hi).1
    · exact h

theorem run_tracks (ops : List SearchOp) : Tracks (Searched.run ops).images (Searched.run ops).index :=
  Lib.Run.foldl_inv (P := fun s : Searched => Tracks s.images s.index) (fun _ op h => step_tracks h op) ops tracks_empty

/-! ## The scan -/

/-- The definitions of `name`, in order. -/
def named (name : CStr) (defs : List (CStr × Sym)) : List Sym := (defs.filter (·.1 = name)).map (·.2)

/-- The scan's choice among the definitions of a name. -/
def firstStrong : UInt64 → List Sym → Sym
  | weakAddr, [] => ⟨weakAddr, weakAddr != 0⟩
  | weakAddr, s :: ss => if s.isWeak = false then ⟨s.addr, false⟩ else firstStrong (if weakAddr = 0 then s.addr else weakAddr) ss

/-- The index's choice. -/
def merged (ss : List Sym) : Option Sym := ss.foldl merge none

theorem best_eq_merged (defs : List (CStr × Sym)) (name : CStr) : best defs name = merged (named name defs) := by
  rw [best, bestFrom_filter, bestFrom, merged, named, List.foldl_map]
  refine List.foldl_ext _ _ _ fun r d hd => ?_
  rw [if_pos (by simpa using (List.mem_filter.mp hd).2)]

theorem named_cons (name : CStr) (d : CStr × Sym) (defs : List (CStr × Sym)) :
    named name (d :: defs) = if d.1 = name then d.2 :: named name defs else named name defs := by
  unfold named
  by_cases h : d.1 = name <;> simp [h]

theorem named_append (name : CStr) (ds es : List (CStr × Sym)) : named name (ds ++ es) = named name ds ++ named name es := by
  simp [named]

theorem named_isPrefix {ds es : List (CStr × Sym)} (h : es <+: ds) : named name es <+: named name ds :=
  (h.filter _).map _

theorem firstStrong_of_strong {s : Sym} (hs : s.isWeak = false) (post : List Sym) : ∀ {pre : List Sym} (weakAddr : UInt64),
    (∀ x ∈ pre, x.isWeak = true) → firstStrong weakAddr (pre ++ s :: post) = s := by
  intro pre
  induction pre with
  | nil =>
    intro weakAddr _
    obtain ⟨addr, isWeak⟩ := s
    cases hs
    rfl
  | cons x pre ih =>
    intro weakAddr h
    have hx := h x List.mem_cons_self
    rw [List.cons_append, firstStrong, if_neg (by simp [hx])]
    exact ih _ fun y hy => h y (List.mem_cons_of_mem _ hy)

/-- Without a strong definition the flag says whether there is an address. -/
theorem firstStrong_of_weak : ∀ {ss : List Sym} (weakAddr : UInt64), (∀ x ∈ ss, x.isWeak = true) →
    (firstStrong weakAddr ss).isWeak = ((firstStrong weakAddr ss).addr != 0) ∧
      (weakAddr ≠ 0 → firstStrong weakAddr ss = ⟨weakAddr, true⟩) := by
  intro ss
  induction ss with
  | nil => intro weakAddr _; exact ⟨rfl, fun h => by simp [firstStrong, h]⟩
  | cons x ss ih =>
    intro weakAddr h
    have hx := h x List.mem_cons_self
    rw [firstStrong, if_neg (by simp [hx])]
    obtain ⟨h1, h2⟩ := ih (if weakAddr = 0 then x.addr else weakAddr) fun y hy => h y (List.mem_cons_of_mem _ hy)
    refine ⟨h1, fun hne => ?_⟩
    rw [if_neg hne] at h2 ⊢
    exact h2 hne

theorem firstStrong_singleton (s : Sym) : (firstStrong 0 [s]).addr = s.addr := by
  unfold firstStrong
  split <;> rfl

theorem foldl_merge_some {e : Sym} : ∀ {ss : List Sym}, (e.isWeak = false ∨ ∀ x ∈ ss, x.isWeak = true) →
    ss.foldl merge (some e) = some e := by
  intro ss
  induction ss with
  | nil => intro _; rfl
  | cons x ss ih =>
    intro h
    have hstep : merge (some e) x = some e := by
      rcases h with h | h
      · simp [merge, h]
      · simp [merge, h x List.mem_cons_self]
    rw [List.foldl_cons, hstep]
    exact ih (h.imp_right fun h y hy => h y (List.mem_cons_of_mem _ hy))

theorem merged_of_strong {s : Sym} (hs : s.isWeak = false) (post : List Sym) {pre : List Sym}
    (h : ∀ x ∈ pre, x.isWeak = true) : merged (pre ++ s :: post) = some s := by
  have hstep : merge (merged pre) s = some s := by
    cases pre with
    | nil => rfl
    | cons x pre =>
      have hx := h x List.mem_cons_self
      have hpre : merged (x :: pre) = some x := foldl_merge_some (.inr fun y hy => h y (List.mem_cons_of_mem _ hy))
      simp [hpre, merge, hx, hs]
  rw [merged, List.foldl_append, List.foldl_cons]
  show post.foldl merge (merge (merged pre) s) = some s
  rw [hstep]
  exact foldl_merge_some (.inl hs)

/-- The first strong one of a list that has one. -/
theorem exists_first_strong (h : ∃ s ∈ ss, s.isWeak = false) :
    ∃ pre s post, ss = pre ++ s :: post ∧ s.isWeak = false ∧ ∀ x ∈ pre, x.isWeak = true := by
  have hsome : (ss.find? fun s => !s.isWeak).isSome := List.find?_isSome.mpr (by simpa using h)
  obtain ⟨s, hs⟩ := Option.isSome_iff_exists.mp hsome
  obtain ⟨hweak, pre, post, hss, hpre⟩ := List.find?_eq_some_iff_append.mp hs
  exact ⟨pre, s, post, hss, by simpa using hweak, by simpa using hpre⟩

/-- The two choices, the index's among the definitions `es` that were entered. -/
theorem merged_eq_firstStrong_iff {es : List Sym} (hpre : es <+: ss) {e : Sym} (he : merged es = some e) :
    e = firstStrong 0 ss ↔
      (∃ s ∈ es, s.isWeak = false) ∨ ((∀ s ∈ ss, s.isWeak = true) ∧ ∀ s, ss.head? = some s → s.addr ≠ 0) := by
  obtain ⟨rest, rfl⟩ := hpre
  by_cases hstrong : ∃ s ∈ es, s.isWeak = false
  · obtain ⟨pre, s, post, rfl, hs, hw⟩ := exists_first_strong hstrong
    refine iff_of_true ?_ (.inl hstrong)
    rw [List.append_assoc, List.cons_append, firstStrong_of_strong hs _ _ hw]
    exact (Option.some.inj ((merged_of_strong hs post hw).symm.trans he)).symm
  · have hweak : ∀ s ∈ es, s.isWeak = true := fun s hs => by
      by_contra hne
      exact hstrong ⟨s, hs, by simpa using hne⟩
    rw [or_iff_right hstrong]
    cases es with
    | nil => cases he
    | cons w es =>
      have hw := hweak w List.mem_cons_self
      have hew : w = e := Option.some.inj
        ((foldl_merge_some (.inr fun y hy => hweak y (List.mem_cons_of_mem _ hy))).symm.trans he)
      subst hew
      by_cases hall : ∀ s ∈ w :: es ++ rest, s.isWeak = true
      · rw [and_iff_right hall]
        have hstep : firstStrong 0 (w :: es ++ rest) = firstStrong w.addr (es ++ rest) := by
          rw [List.cons_append, firstStrong, if_neg (by simp [hw]), if_pos rfl]
        have hrest : ∀ y ∈ es ++ rest, y.isWeak = true := fun y hy => hall y (List.mem_cons_of_mem _ hy)
        obtain ⟨h1, h2⟩ := firstStrong_of_weak w.addr hrest
        rw [hstep]
        constructor
        · intro h s hs
          cases hs
          rw [← h, hw] at h1
          simpa using h1
        · intro h
          rw [h2 (h w rfl)]
          obtain ⟨addr, isWeak⟩ := w
          cases hw
          rfl
      · -- a strong one that was not entered
        refine iff_of_false (fun h => ?_) fun h => hall h.1
        have hstrong : ∃ s ∈ w :: es ++ rest, s.isWeak = false := by
          push Not at hall
          simpa only [Bool.not_eq_true] using hall
        obtain ⟨pre, s, post, heq, hs, hpre⟩ := exists_first_strong hstrong
        rw [heq, firstStrong_of_strong hs _ _ hpre] at h
        rw [h, hs] at hw
        cases hw

/-- Every symbol that reads as `name` has it inside the string table. -/
def Terminated (img : LoadedImage) (name : CStr) : Prop :=
  ∀ st, img.symtab = some st → ∀ sym ∈ st.syms, sym.strx < st.strsize → cstrAt st.strtab sym.strx.toNat = name →
    0 ∈ (st.strtab.take st.strsize.toNat).drop sym.strx.toNat

instance (img : LoadedImage) (name : CStr) : Decidable (Terminated img name) :=
  inferInstanceAs (Decidable (∀ st ∈ img.symtab, ∀ sym ∈ st.syms, _ → _ → _))

theorem externalDef_name {st : SymTab} {slide : UInt64} {sym : Nlist} {d : CStr × Sym}
    (h : externalDef st slide sym = some d) : d = (cstrAt st.strtab sym.strx.toNat, ⟨sym.value + slide, sym.weakDef⟩) ∧
      d.1 ≠ [] ∧ sym.defined = true ∧ sym.external = true ∧ sym.strx ≠ 0 ∧ sym.strx < st.strsize := by
  unfold externalDef at h
  split at h
  · cases h
  · rename_i hdef
    split at h
    · cases h
    · rename_i hext
      split at h
      · cases h
      · rename_i hstrx
        obtain ⟨n, hn, rfl⟩ := Option.map_eq_some_iff.mp h
        rw [cstrAt_of_boundedName hn]
        have hne : n ≠ [] := by
          unfold boundedName at hn
          dsimp only at hn
          split at hn
          · rename_i hz
            exact Option.some.inj hn ▸ hz.2
          · cases hn
        simp only [not_or, UInt32.not_le] at hstrx
        exact ⟨rfl, hne, by simpa using hdef, by simpa using hext, hstrx.1, hstrx.2⟩

theorem externalDef_of_match {st : SymTab} {slide : UInt64} {sym : Nlist} (hname : name ≠ [])
    (hend : 0 ∈ (st.strtab.take st.strsize.toNat).drop sym.strx.toNat) (hdef : sym.defined = true)
    (hext : sym.external = true) (h0 : sym.strx ≠ 0) (hlt : sym.strx < st.strsize)
    (hread : cstrAt st.strtab sym.strx.toNat = name) :
    externalDef st slide sym = some (name, ⟨sym.value + slide, sym.weakDef⟩) := by
  have hb : boundedName st sym.strx = some name := by
    simp only [boundedName, cstrAt_take hend, hread]
    simp [hend, hname]
  simp [externalDef, hdef, hext, h0, hlt, hb]

/-- The test of the scan's loop, without locals. -/
def scanMatches (st : SymTab) (name : CStr) (sym : Nlist) : Bool :=
  sym.defined && sym.external && decide (sym.strx ≠ 0 ∧ sym.strx < st.strsize ∧ cstrAt st.strtab sym.strx.toNat = name)

def slidSym (slide : UInt64) (sym : Nlist) : Sym := ⟨sym.value + slide, sym.weakDef⟩

theorem scanFrom_eq_firstStrong (st : SymTab) (name : CStr) (slide : UInt64) : ∀ (syms : List Nlist) (weakAddr : UInt64),
    scanFrom st slide name false weakAddr syms =
      firstStrong weakAddr ((syms.filter (scanMatches st name)).map (slidSym slide)) := by
  intro syms
  induction syms with
  | nil => intro weakAddr; rfl
  | cons sym syms ih =>
    intro weakAddr
    have hcond : (sym.defined = true ∧ (false = true ∨ sym.external = true) ∧ sym.strx ≠ 0 ∧ sym.strx < st.strsize ∧
        cstrAt st.strtab sym.strx.toNat = name) ↔ scanMatches st name sym = true := by simp [scanMatches, and_assoc]
    rw [scanFrom]
    simp only [hcond]
    by_cases hm : scanMatches st name sym = true
    · rw [if_pos hm, List.filter_cons_of_pos hm, List.map_cons, firstStrong]
      by_cases hw : sym.weakDef = false
      · rw [if_pos hw, if_pos (show (slidSym slide sym).isWeak = false from hw)]
        rfl
      · rw [if_neg hw, if_neg (show ¬ (slidSym slide sym).isWeak = false from hw)]
        exact ih _
    · rw [if_neg hm, List.filter_cons_of_neg hm]
      exact ih _

/-- The symbols that define `name` in the index are those of the scan whose name ends
    inside the string table. -/
theorem named_externalDefs (st : SymTab) (name : CStr) (slide : UInt64) : ∀ (syms : List Nlist),
    named name (syms.filterMap (externalDef st slide)) =
      ((syms.filter (scanMatches st name)).filter fun sym => boundedName st sym.strx = some name).map (slidSym slide) := by
  intro syms
  induction syms with
  | nil => rfl
  | cons sym syms ih =>
    rcases hd : externalDef st slide sym with _ | d
    · have hno : ¬ (scanMatches st name sym = true ∧ boundedName st sym.strx = some name) := by
        rintro ⟨hm, hb⟩
        simp only [scanMatches, Bool.and_eq_true, decide_eq_true_eq] at hm
        simp [externalDef, hm, hb] at hd
      rw [List.filterMap_cons_none hd, ih, List.filter_filter, List.filter_filter, List.filter_cons_of_neg]
      simpa [and_comm] using hno
    · obtain ⟨heq, -, hdef, hext, h0, hlt⟩ := externalDef_name hd
      rw [List.filterMap_cons_some hd, named_cons, ih, List.filter_filter, List.filter_filter]
      by_cases hn : d.1 = name
      · have hread : cstrAt st.strtab sym.strx.toNat = name := by rw [← hn, heq]
        have hb : boundedName st sym.strx = some name := by
          simp only [externalDef, hdef, hext, h0, UInt32.not_le.mpr hlt, Bool.true_eq_false, or_self, if_false,
            Option.map_eq_some_iff] at hd
          obtain ⟨n, hbn, rfl⟩ := hd
          rw [hbn, ← hn]
        have hm : scanMatches st name sym = true := by simp [scanMatches, hdef, hext, h0, hlt, hread]
        rw [if_pos hn, List.filter_cons_of_pos (by simp [hm, hb]), List.map_cons, heq]
        rfl
      · have hno : scanMatches st name sym = false := by
          have hread : cstrAt st.strtab sym.strx.toNat ≠ name := fun h => hn (by rw [heq]; exact h)
          simp [scanMatches, hread]
        rw [if_neg hn, List.filter_cons_of_neg (by simp [hno])]

theorem scanSymbols_eq_firstStrong (hname : name ≠ []) (ht : Terminated img name) :
    scanSymbols img name false = firstStrong 0 (named name (externalDefs img)) := by
  unfold scanSymbols externalDefs
  rcases hs : img.symtab with _ | st
  · rfl
  · dsimp only
    have hall : (st.syms.filter (scanMatches st name)).filter (fun sym => boundedName st sym.strx = some name) =
        st.syms.filter (scanMatches st name) := List.filter_eq_self.mpr fun sym hsym => ?_
    · rw [scanFrom_eq_firstStrong, named_externalDefs, hall]
    obtain ⟨hmem, hm⟩ := List.mem_filter.mp hsym
    simp only [scanMatches, Bool.and_eq_true, decide_eq_true_eq] at hm
    have hend := ht st hs sym hmem hm.2.2.1 hm.2.2.2
    simp [boundedName, cstrAt_take hend, hm.2.2.2, hend, hname]

theorem named_nil_of_empty : named [] (defsOf imgs i) = [] := by
  rw [named, List.map_eq_nil_iff, List.filter_eq_nil_iff]
  intro d hd
  unfold defsOf externalDefs at hd
  rcases hi : imgs[i]? with _ | img
  · simp [hi] at hd
  · simp only [hi, Option.map_some, Option.getD_some] at hd
    split at hd
    · cases hd
    · obtain ⟨sym, -, hsym⟩ := List.mem_filterMap.mp hd
      simpa using (externalDef_name hsym).2.1

/-! ## The index against the scan -/

/-- The index answers for `name` as the scan does: none of its definitions was entered, or
    a strong one was, or the image has weak ones only and the first has an address. -/
def Faithful (imgs : List LoadedImage) (order : List Nat) (i : Nat) (name : CStr) : Prop :=
  named name (enteredDefs imgs order i) = [] ∨ (∃ s ∈ named name (enteredDefs imgs order i), s.isWeak = false) ∨
    ((∀ s ∈ named name (defsOf imgs i), s.isWeak = true) ∧
      ∀ s, (named name (defsOf imgs i)).head? = some s → s.addr ≠ 0)

theorem merged_nil_iff : merged ss = none ↔ ss = [] := by
  constructor
  · intro h
    rcases List.eq_nil_or_concat ss with rfl | ⟨ss, s, rfl⟩
    · rfl
    · obtain ⟨e, he⟩ := merge_isSome (merged ss) s
      rw [List.concat_eq_append, merged, List.foldl_append] at h
      exact absurd (he.symm.trans h) (by simp)
  · rintro rfl
    rfl

/-- A lookup from a reachable index. -/
theorem Tracks.find_eq (h : Tracks imgs ix)
    (himg : imgs[i]? = some img) (name : CStr) : ∃ full : Bool, (full = true ↔ Overflowed imgs (asked ix.indexed i)) ∧
      (findSymbolInImage imgs i name false ix).1 = match merged (named name (enteredDefs imgs (asked ix.indexed i) i)) with
        | some s => s
        | none => if full then scanSymbols img name false else ⟨0, false⟩ := by
  obtain ⟨h', hindexed⟩ := symbolIndexImage_tracks h (List.getElem?_eq_some_iff.mp himg).1
  have hget := h'.exact i name
  have hflag := h'.flag
  rw [hindexed] at hget hflag
  rw [best_eq_merged] at hget
  refine ⟨_, hflag, ?_⟩
  unfold findSymbolInImage symbolIndexLookup
  simp only [Bool.false_eq_true, if_false, hget, himg, Option.map_some, Option.getD_some]
  rcases merged (named name (enteredDefs imgs (asked ix.indexed i) i)) with _ | s
  · dsimp only
    split <;> rfl
  · rfl

/-- Without an overflow everything of a looked-up image is entered. -/
theorem enteredDefs_of_not_overflowed {order : List Nat}
    (h : ¬ Overflowed imgs (asked order i)) : enteredDefs imgs (asked order i) i = defsOf imgs i := by
  by_contra hne
  refine h ⟨i, ?_, hne⟩
  unfold asked
  split <;> simp_all

theorem find_eq_scan_iff (h : Tracks imgs ix) (himg : imgs[i]? = some img) (ht : Terminated img name) :
    (findSymbolInImage imgs i name false ix).1 = scanSymbols img name false ↔
      if name = [] then Overflowed imgs (asked ix.indexed i) ∨ scanSymbols img [] false = ⟨0, false⟩
      else Faithful imgs (asked ix.indexed i) i name := by
  obtain ⟨full, hflag, hfind⟩ := h.find_eq himg name
  have hdefs : defsOf imgs i = externalDefs img := by simp [defsOf, himg]
  have hprefix : named name (enteredDefs imgs (asked ix.indexed i) i) <+: named name (defsOf imgs i) :=
    named_isPrefix enteredDefs_isPrefix
  rw [hfind]
  by_cases hname : name = []
  · -- an empty name is never entered
    subst hname
    rw [named_nil_of_empty] at hprefix
    rw [if_pos rfl, List.prefix_nil.mp hprefix, ← hflag]
    show (if _ then _ else _) = _ ↔ _
    cases full <;> simp [eq_comm]
  · rw [if_neg hname, scanSymbols_eq_firstStrong hname ht, Faithful, ← hdefs]
    rcases hm : merged (named name (enteredDefs imgs (asked ix.indexed i) i)) with _ | s
    · have hnil := merged_nil_iff.mp hm
      refine iff_of_true ?_ (.inl hnil)
      cases full with
      | true => rfl
      | false =>
        rw [enteredDefs_of_not_overflowed fun ho => by simpa using hflag.mpr ho] at hnil
        rw [hnil]
        rfl
    · have hne : named name (enteredDefs imgs (asked ix.indexed i) i) ≠ [] := fun hnil => by
        rw [hnil] at hm
        cases hm
      rw [or_iff_right hne]
      exact merged_eq_firstStrong_iff hprefix hm

/-- Over every sequence of registrations and lookups. -/
theorem findSymbolInImage_eq_scan_iff (ops : List SearchOp) {i : Nat} {img : LoadedImage}
    (himg : (Searched.run ops).images[i]? = some img) {name : CStr} (ht : Terminated img name) :
    (findSymbolInImage (Searched.run ops).images i name false (Searched.run ops).index).1 = scanSymbols img name false ↔
      if name = [] then
        Overflowed (Searched.run ops).images (asked (Searched.run ops).index.indexed i) ∨ scanSymbols img [] false = ⟨0, false⟩
      else Faithful (Searched.run ops).images (asked (Searched.run ops).index.indexed i) i name :=
  find_eq_scan_iff (run_tracks ops) himg ht

/-- A weak and then a strong `_f`. -/
def twiceDefined : LoadedImage :=
  ⟨0, 0x1000, cstr "/lib/b", [], some ⟨0, [⟨1, 0x0F, 0x80, 0x10⟩, ⟨1, 0x0F, 0, 0x20⟩], [0, 0x5F, 0x66, 0], 4⟩⟩

theorem findSymbolInImage_eq_scan_twice :
    (findSymbolInImage (Searched.run [.register twiceDefined, .find 0 [] false]).images 0 (cstr "_f") false
      (Searched.run [.register twiceDefined, .find 0 [] false]).index).1 = scanSymbols twiceDefined (cstr "_f") false := by
  refine (findSymbolInImage_eq_scan_iff [.register twiceDefined, .find 0 [] false] rfl ?_).mpr ?_
  · intro st hst
    cases hst
    decide
  · rw [if_neg (by decide)]
    exact .inr (.inl ⟨⟨0x1020, false⟩, by decide, rfl⟩)

/-! ## An image that fills the index -/

section Crowded

/-- A name of `n` underscores. -/
def bars (n : Nat) : CStr := List.replicate n 0x5F

theorem bars_injective {a b : Nat} (h : bars a = bars b) : a = b := by
  simpa [bars] using congrArg List.length h

/-- A weak definition of the longest name, one of every shorter one, and a strong one of
    the longest again. The names share their ends in the string table. -/
def crowdedTab (n : Nat) : SymTab where
  symoff := 0
  syms := ⟨1, 0x0F, 0x80, 0x10⟩ :: ((List.range (n - 1)).map fun k => ⟨UInt32.ofNat (k + 2), 0x0F, 0, 0x30⟩) ++
    [⟨1, 0x0F, 0, 0x20⟩]
  strtab := 0 :: (bars n ++ [0])
  strsize := UInt32.ofNat (n + 2)

def crowdedImage (n : Nat) : LoadedImage := ⟨0, 0, cstr "/lib/a", [], some (crowdedTab n)⟩

variable {n : Nat} (hn : n + 2 < 2 ^ 32)

variable {k : Nat}

theorem crowded_drop (hk : k ≤ n) : (crowdedTab n).strtab.drop (k + 1) = bars (n - k) ++ [0] := by
  show (bars n ++ [0]).drop k = _
  rw [List.drop_append_of_le_length (by simpa [bars] using hk)]
  simp [bars]

theorem crowded_cstrAt (hk : k ≤ n) : cstrAt (crowdedTab n).strtab (k + 1) = bars (n - k) := by
  rw [cstrAt, crowded_drop hk, List.takeWhile_append_of_pos]
  · simp
  · intro b hb
    rw [List.eq_of_mem_replicate hb]
    decide

include hn

theorem crowded_ends (hk : k ≤ n) : 0 ∈ ((crowdedTab n).strtab.take (crowdedTab n).strsize.toNat).drop (k + 1) := by
  have hsize : (crowdedTab n).strsize.toNat = (crowdedTab n).strtab.length := by
    simpa [crowdedTab, bars] using hn
  rw [hsize, List.take_length, crowded_drop hk]
  simp

theorem crowded_def (hk : k < n) (desc : UInt16) (value : UInt64) :
    externalDef (crowdedTab n) 0 ⟨UInt32.ofNat (k + 1), 0x0F, desc, value⟩ =
      some (bars (n - k), ⟨value, desc &&& 0x0080 != 0⟩) := by
  have hstrx : (UInt32.ofNat (k + 1)).toNat = k + 1 := UInt32.toNat_ofNat_of_lt' (by show k + 1 < 2 ^ 32; omega)
  have hsize : (UInt32.ofNat (n + 2)).toNat = n + 2 := UInt32.toNat_ofNat_of_lt' hn
  have hne : bars (n - k) ≠ [] := by
    intro h
    have := congrArg List.length h
    simp [bars] at this
    omega
  have hdef : (⟨UInt32.ofNat (k + 1), 0x0F, desc, value⟩ : Nlist).defined = true := by
    show ((0x0F : UInt8) &&& 0x0E != 0) = true
    decide
  have hext : (⟨UInt32.ofNat (k + 1), 0x0F, desc, value⟩ : Nlist).external = true := by
    show ((0x0F : UInt8) &&& 0x01 != 0) = true
    decide
  rw [externalDef_of_match hne (by rw [hstrx]; exact crowded_ends hn hk.le) hdef hext ?_ ?_
    (by rw [hstrx]; exact crowded_cstrAt hk.le)]
  · simp [Nlist.weakDef]
  · intro h
    have := congrArg UInt32.toNat h
    rw [hstrx] at this
    cases this
  · rw [UInt32.lt_iff_toNat_lt, hstrx]
    show k + 1 < (UInt32.ofNat (n + 2)).toNat
    omega

theorem crowded_terminated : Terminated (crowdedImage n) (bars n) := by
  intro st hst sym hsym _ _
  cases hst
  have hstrx : ∃ k ≤ n, sym.strx.toNat = k + 1 := by
    simp only [crowdedTab, List.cons_append, List.mem_cons, List.mem_append, List.mem_map, List.mem_range,
      List.not_mem_nil, or_false] at hsym
    rcases hsym with rfl | ⟨k, hk, rfl⟩ | rfl
    · exact ⟨0, Nat.zero_le _, rfl⟩
    · exact ⟨k + 1, by omega, UInt32.toNat_ofNat_of_lt' (by show k + 2 < 2 ^ 32; omega)⟩
    · exact ⟨0, Nat.zero_le _, rfl⟩
  obtain ⟨k, hk, hstrx⟩ := hstrx
  rw [hstrx]
  exact crowded_ends hn hk

theorem crowded_defs (hpos : 0 < n) : externalDefs (crowdedImage n) = ((bars n, ⟨0x10, true⟩) ::
    (List.range (n - 1)).map fun k => (bars (n - (k + 1)), ⟨0x30, false⟩)) ++ [(bars n, ⟨0x20, false⟩)] := by
  have hmid : ((List.range (n - 1)).map fun k => (⟨UInt32.ofNat (k + 2), 0x0F, 0, 0x30⟩ : Nlist)).filterMap
      (externalDef (crowdedTab n) 0) = (List.range (n - 1)).map fun k => (bars (n - (k + 1)), ⟨0x30, false⟩) := by
    rw [List.filterMap_map, ← List.filterMap_eq_map]
    refine List.filterMap_congr fun k hk => ?_
    exact crowded_def hn (by have := List.mem_range.mp hk; omega) 0 0x30
  have hfirst : externalDef (crowdedTab n) 0 ⟨1, 0x0F, 0x80, 0x10⟩ = some (bars n, ⟨0x10, true⟩) :=
    crowded_def hn hpos 0x80 0x10
  have hlast : externalDef (crowdedTab n) 0 ⟨1, 0x0F, 0, 0x20⟩ = some (bars n, ⟨0x20, false⟩) := crowded_def hn hpos 0 0x20
  show List.filterMap (externalDef (crowdedTab n) 0) (⟨1, 0x0F, 0x80, 0x10⟩ :: (List.range (n - 1)).map _ ++
    [⟨1, 0x0F, 0, 0x20⟩]) = _
  rw [List.cons_append, List.filterMap_cons_some hfirst, List.filterMap_append, hmid, List.filterMap_cons_some hlast]
  rfl

omit hn in
theorem named_bars_of_shorter : named (bars n) ((List.range (n - 1)).map fun k => (bars (n - (k + 1)), ⟨0x30, false⟩)) = [] := by
  rw [named, List.map_eq_nil_iff, List.filter_eq_nil_iff]
  intro d hd
  obtain ⟨k, hk, rfl⟩ := List.mem_map.mp hd
  have := List.mem_range.mp hk
  simp [bars]
  omega

/-- All but the last definition find room for `n` names. -/
theorem crowded_entered (hpos : 0 < n) : entered n [] (externalDefs (crowdedImage n)) = (bars n, ⟨0x10, true⟩) ::
    (List.range (n - 1)).map fun k => (bars (n - (k + 1)), ⟨0x30, false⟩) := by
  rw [crowded_defs hn hpos]
  obtain ⟨seen, hlen, heq⟩ := @entered_append_of_fresh n ((bars n, (⟨0x10, true⟩ : Sym)) ::
    (List.range (n - 1)).map fun k => (bars (n - (k + 1)), ⟨0x30, false⟩)) [] [(bars n, ⟨0x20, false⟩)]
    (by
      simp only [List.map_cons, List.map_map, List.nil_append, List.nodup_cons, List.mem_map, List.mem_range]
      refine ⟨fun ⟨k, hk, h⟩ => ?_, List.Nodup.map_on (fun k hk l hl h => ?_) List.nodup_range⟩
      · have := bars_injective h
        omega
      · have := bars_injective h
        have := List.mem_range.mp hk
        have := List.mem_range.mp hl
        omega) (by simp; omega)
  rw [heq, entered, if_neg (by simp at hlen; omega), List.append_nil]

theorem crowded_unfaithful (hcap : symbolIndexCapacity = n) (hpos : 0 < n) :
    ¬ Faithful [crowdedImage n] [0] 0 (bars n) := by
  have hdefs : defsOf [crowdedImage n] 0 = externalDefs (crowdedImage n) := by simp [defsOf]
  have hentered : enteredDefs [crowdedImage n] [0] 0 = entered n [] (externalDefs (crowdedImage n)) := by
    rw [← hdefs, ← List.nil_append [0], enteredDefs_append_self (by simp), hcap]
    simp [demand]
  rw [crowded_entered hn hpos] at hentered
  rw [crowded_defs hn hpos] at hdefs
  intro h
  simp only [Faithful, hentered, hdefs, named_append, named_cons, if_true, named_bars_of_shorter] at h
  simp [named] at h

end Crowded

/-- The strong definition found the table full, so a lookup returns the weak one. -/
theorem index_hides_strong : Terminated (crowdedImage symbolIndexCapacity) (bars symbolIndexCapacity) ∧
    (findSymbolInImage (Searched.run [.register (crowdedImage symbolIndexCapacity)]).images 0 (bars symbolIndexCapacity) false
      (Searched.run [.register (crowdedImage symbolIndexCapacity)]).index).1 ≠
    scanSymbols (crowdedImage symbolIndexCapacity) (bars symbolIndexCapacity) false := by
  have hn : symbolIndexCapacity + 2 < 2 ^ 32 := by decide
  have hpos : 0 < symbolIndexCapacity := by decide
  generalize hcap : symbolIndexCapacity = n at hn hpos ⊢
  have hne : bars n ≠ [] := fun h => absurd (bars_injective (b := 0) h) (by omega)
  refine ⟨crowded_terminated hn, fun heq => ?_⟩
  have hf := (find_eq_scan_iff (run_tracks [.register (crowdedImage n)]) (i := 0) rfl (crowded_terminated hn)).mp heq
  rw [if_neg hne] at hf
  exact crowded_unfaithful hn hcap hpos hf

end Panthera.Dyld
