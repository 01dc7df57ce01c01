/-
  Panthera.Xpc.Counts — the reference counts of XPC objects
  (`libxpc_impl.c`: `xpc_retain`, `xpc_release`,
  `_xpc_object_destroy` and the calls that change containers).

  Beside the heap a run keeps the references that clients own. Clients name objects that are
  there, release only references they own, and start from empty containers.

  Main result: `counts_are_references`, with which every call returns. An entry is released
  while its slot still holds it: in a container that hangs on the entry alone the release
  comes back to that slot, and does not end (`an_entry_that_holds_its_container`).
-/

import Panthera.Xpc.Objects

namespace Panthera.Xpc.Objects

open Lib Lib.Wire Lib.RefCount

/-! ## Clients -/

/-- The heap, and the references that clients own. -/
structure Ledger where
  heap : Heap
  clients : Multiset Nat

def Ledger.empty : Ledger := ⟨.empty, 0⟩

def refsOf (p : Option Pointer) : List Nat := (p.bind Pointer.ref?).toList

/-- What the clients own after the call. -/
def Call.clients (h : Heap) (clients : Multiset Nat) : Call → Multiset Nat
  | .create n => refsOf (n.create h).1 + clients
  | .dictionaryCreate _ | .dictionaryCreateReply _ | .arrayCreate _ => h.next ::ₘ clients
  | .retain p => refsOf p + clients
  | .release p => clients - refsOf p
  | _ => clients

def Ledger.step (l : Ledger) (c : Call) : Option Ledger := (c.step l.heap).toOption.map fun h => ⟨h, c.clients l.heap l.clients⟩

/-- The slots of live containers that hold an object. -/
def slotsHolding (h : Heap) (r : Nat) : Nat := held kids h ∅ r

/-- Counts are references, and an object is destroyed exactly if there are none. -/
structure Ledger.Counted (l : Ledger) : Prop where
  count : ∀ r c, l.heap.cells r = some c → c.count.toInt = l.clients.count r + slotsHolding l.heap r
  destroyed : ∀ r, r ∈ l.heap.destroyed.map (·.1) ↔ r < l.heap.next ∧ l.clients.count r + slotsHolding l.heap r = 0
  live : ∀ r < l.heap.next, (l.heap.cells r).isSome ↔ r ∉ l.heap.destroyed.map (·.1)
  once : (l.heap.destroyed.map (·.1)).Nodup
  no_stale : l.heap.stale = []

/-- NULL, a singleton, or an object that is there. -/
def There (h : Heap) (p : Option Pointer) : Prop := ∀ r ∈ refsOf p, (h.cells r).isSome

def Owned (clients : Multiset Nat) (p : Option Pointer) : Prop := ∀ r ∈ refsOf p, r ∈ clients

/-- What clients keep to. -/
def Call.Legal (l : Ledger) : Call → Prop
  | .create _ => True
  | .dictionaryCreate entries => entries = []
  | .arrayCreate objects => objects = []
  | .dictionaryCreateReply p | .retain p | .dictionaryGetValue p _ | .dictionarySetNew p _ _ | .arraySet p _ _ => There l.heap p
  | .release p => Owned l.clients p
  | .dictionarySetValue dict _ value => There l.heap dict ∧ There l.heap value
  | .arrayAppendValue array value => There l.heap array ∧ There l.heap value

/-- One more reference can be counted. -/
def Room (h : Heap) (clients : Multiset Nat) (p : Option Pointer) : Prop :=
  ∀ r ∈ refsOf p, clients.count r + slotsHolding h r + 1 < 2 ^ 31

def arrayGetCount (array : Option Pointer) (h : Heap) : Nat :=
  match array with
  | some (.object a) =>
    match h.content? a with
    | some (.array slots) => slots.used.length
    | _ => 0
  | _ => 0

/-- An entry is given up only in a container that the client owns a reference of, and every
    reference can be counted. -/
def Call.Safe (l : Ledger) : Call → Prop
  | .retain p => Room l.heap l.clients p
  | .dictionarySetValue dict key value =>
    Room l.heap l.clients value ∧ (Objects.dictionaryGetValue dict key l.heap = some none ∨ Owned l.clients dict)
  | .dictionarySetNew dict key _ => Objects.dictionaryGetValue dict key l.heap = some none ∨ Owned l.clients dict
  | .arrayAppendValue _ value => Room l.heap l.clients value
  | .arraySet array index _ => arrayGetCount array l.heap ≤ index ∨ Owned l.clients array
  | _ => True

/-! ## References taken and given up -/

section

variable {h : Heap} {refs : Multiset Nat} {d : Nat} {x : Content} {p old : Option Pointer}

theorem retain_balanced (hb : Balanced kids h refs ∅) (hthere : There h p) (hroom : Room h refs p) :
    Balanced kids (retain p h) (refsOf p + refs) ∅ := by
  rcases p with _ | _ | r
  · simpa [refsOf, retain] using hb
  · simpa [refsOf, retain, Pointer.ref?] using hb
  · obtain ⟨c, hc⟩ := Option.isSome_iff_exists.mp (hthere r (by simp [refsOf, Pointer.ref?]))
    have := hb.retain hc (by simp) (hroom r (by simp [refsOf, Pointer.ref?]))
    simpa [refsOf, Pointer.ref?, retain] using this

theorem release_balanced (hb : Balanced kids h (refsOf p + refs) ∅) : ∃ h', release p h = .ok h' ∧ Balanced kids h' refs ∅ := by
  rcases p with _ | _ | r
  · exact ⟨h, rfl, by simpa [refsOf] using hb⟩
  · exact ⟨h, rfl, by simpa [refsOf, Pointer.ref?] using hb⟩
  · have hfuel : liveCount h ∅ < h.next + 1 := by
      refine Nat.lt_succ_of_le (Nat.le_trans (Finset.card_filter_le _ _) ?_)
      rw [Finset.card_range]
    have hmine : Balanced kids h (r ::ₘ refs) ∅ := by simpa [refsOf, Pointer.ref?] using hb
    obtain ⟨h', hrelease, hb'⟩ := Balanced.release hmine hfuel
    exact ⟨h', by simp only [release, hrelease], hb'⟩

theorem create_balanced (hb : Balanced kids h refs ∅) (n : New) :
    Balanced kids (n.create h).2 (refsOf (n.create h).1 + refs) ∅ := by
  rw [New.create]
  cases n.made with
  | null => simpa [refsOf] using hb
  | singleton s => simpa [refsOf, Pointer.ref?] using hb
  | object v =>
    have : Balanced kids h (refs + kids (.value v)) ∅ := by simpa [kids] using hb
    simpa [refsOf, Pointer.ref?] using this.alloc

theorem refsOf_le (hp : Owned refs p) : (refsOf p : Multiset Nat) ≤ refs := by
  rcases p with _ | _ | r
  · simp [refsOf]
  · simp [refsOf, Pointer.ref?]
  · simpa [refsOf, Pointer.ref?] using hp r (by simp [refsOf, Pointer.ref?])

/-- A container that stays gets its new content after the old entry is released. -/
theorem release_setContent (hlive : (h.cells d).isSome) (hb : Balanced kids (h.setContent d x) (refsOf p + refs) ∅) (hd : d ∈ refs) :
    ∃ h', release p h = .ok h' ∧ Balanced kids (h'.setContent d x) refs ∅ := by
  obtain ⟨c, hc⟩ := Option.isSome_iff_exists.mp hlive
  rw [setContent_eq_reset hc] at hb
  obtain ⟨g, hrelease, hdone⟩ := release_balanced hb
  obtain ⟨c', hc'⟩ := hdone.exists_of_mem hd
  have hstays : d ∉ g.destroyed.map (·.1) := by
    rw [hdone.destroyed_iff]
    simp [hc']
  have hcomm : ∃ g', release p h = .ok g' ∧ g = g'.reset d x := by
    rcases p with _ | _ | r
    · cases hrelease
      exact ⟨h, rfl, rfl⟩
    · cases hrelease
      exact ⟨h, rfl, rfl⟩
    · simp only [release] at hrelease ⊢
      split at hrelease
      · cases hrelease
      · rename_i hg
        cases hrelease
        obtain ⟨g', hg', hreset⟩ := release_reset _ r hg hstays
        exact ⟨g', by rw [show h.next = (h.reset d x).next from rfl, hg'], hreset⟩
  obtain ⟨g', hg', rfl⟩ := hcomm
  simp only [Heap.reset, if_pos] at hc'
  obtain ⟨c'', hc'', -⟩ := Option.map_eq_some_iff.mp hc'
  exact ⟨g', hg', by rwa [setContent_eq_reset hc'']⟩

/-- An entry is overwritten: the container takes over the reference to the new one. -/
theorem overwrite_balanced {c : Content} (hb : Balanced kids h (refsOf p + refs) ∅) (hc : h.content? d = some c)
    (hkids : (refsOf old + kids x : Multiset Nat) = refsOf p + kids c) (hd : d ∈ refs) :
    Unless .fault (Balanced kids · refs ∅) (release old h >>= fun h => pure (h.setContent d x)) := by
  obtain ⟨cell, hcell, rfl⟩ := Option.map_eq_some_iff.mp hc
  have hset : Balanced kids (h.setContent d x) (refsOf old + refs) ∅ := by
    refine hb.setContent hcell (by simp) ?_
    calc (refsOf old + refs + kids x : Multiset Nat) = refs + (refsOf old + kids x) := by abel
      _ = refs + (refsOf p + kids cell.content) := by rw [hkids]
      _ = refsOf p + refs + kids cell.content := by abel
  obtain ⟨h', hrelease, hb'⟩ := release_setContent (by simp [hcell]) hset hd
  rw [hrelease]
  exact .ok hb'

/-- An entry is added. -/
theorem add_balanced {c : Content} (hb : Balanced kids h refs ∅) (hc : h.content? d = some c) (hthere : There h p) (hroom : Room h refs p)
    (hkids : (kids x : Multiset Nat) = refsOf p + kids c) : Balanced kids (retain p (h.setContent d x)) refs ∅ := by
  obtain ⟨cell, hcell, rfl⟩ := Option.map_eq_some_iff.mp hc
  obtain ⟨cell', hcell', hsame⟩ := Option.map_eq_some_iff.mp ((content?_retain p h d).trans hc)
  have hcomm : retain p (h.setContent d x) = (retain p h).setContent d x := by
    rw [setContent_eq_reset hcell, setContent_eq_reset hcell']
    rcases p with _ | _ | r
    · rfl
    · rfl
    · exact retain_reset
  rw [hcomm]
  refine (retain_balanced hb hthere hroom).setContent hcell' (by simp) ?_
  rw [hkids, hsame]
  abel

end

/-! ## The slots of a container -/

section

variable {α : Type} (f : α → Option Nat)

theorem filterMap_cons_toList (a : α) (l : List α) : ((a :: l).filterMap f : Multiset Nat) = (f a).toList + l.filterMap f := by
  rw [List.filterMap_cons]
  cases f a <;> simp

theorem filterMap_set {l : List α} {i : Nat} {a : α} (h : l[i]? = some a) (b : α) :
    ((f a).toList + (l.set i b).filterMap f : Multiset Nat) = (f b).toList + l.filterMap f := by
  obtain ⟨hi, rfl⟩ := List.getElem?_eq_some_iff.mp h
  have hset : ((l.set i b).filterMap f : Multiset Nat) = (f b).toList + (l.eraseIdx i).filterMap f := by
    rw [Multiset.coe_eq_coe.mpr ((List.set_perm_cons_eraseIdx hi b).filterMap f), filterMap_cons_toList]
  have hold : (l.filterMap f : Multiset Nat) = (f l[i]).toList + (l.eraseIdx i).filterMap f := by
    rw [← Multiset.coe_eq_coe.mpr ((List.getElem_cons_eraseIdx_perm hi).filterMap f), filterMap_cons_toList]
  rw [hset, hold]
  abel

theorem filterMap_swapRemove {l : List α} {i : Nat} {a : α} (h : l[i]? = some a) :
    ((f a).toList + (swapRemove l i).filterMap f : Multiset Nat) = l.filterMap f := by
  rw [← filterMap_cons_toList]
  exact Multiset.coe_eq_coe.mpr ((swapRemove_perm h).filterMap f)

theorem filterMap_push (l : List α) (a : α) : ((l ++ [a]).filterMap f : Multiset Nat) = (f a).toList + l.filterMap f := by
  rw [← filterMap_cons_toList]
  exact Multiset.coe_eq_coe.mpr ((List.perm_append_singleton a l).filterMap f)

end

theorem findKey_some {key : CString} : ∀ {l : List (Option (CString × Pointer))} {i : Nat}, findKey key l = some (some i) →
    ∃ old, l[i]? = some (some (key, old)) := by
  intro l
  induction l with
  | nil => intro i h; cases h
  | cons e l ih =>
    intro i h
    cases e with
    | none => cases h
    | some e =>
      rw [findKey] at h
      split at h
      · rename_i he
        cases h
        exact ⟨e.2, by rw [List.getElem?_cons_zero, ← he]⟩
      · obtain ⟨j, hj, hij⟩ := Option.map_eq_some_iff.mp h
        obtain ⟨k, rfl, rfl⟩ := Option.map_eq_some_iff.mp hij
        obtain ⟨old, hold⟩ := ih hj
        exact ⟨old, by rw [List.getElem?_cons_succ, hold]⟩

/-! ## Calls -/

section

variable {h : Heap} {refs : Multiset Nat}

theorem content?_create {r : Nat} (hr : r < h.next) (n : New) : (n.create h).2.content? r = h.content? r := by
  rw [New.create]
  split
  · rfl
  · rfl
  · simp [Heap.content?, Heap.alloc, Nat.ne_of_lt hr]

variable (hb : Balanced kids h refs ∅)

include hb

variable {value : Option Pointer}

theorem dictionarySet_balanced {d : Nat} {replyPort : Option Nat} {slots : Slots (CString × Pointer)} {key : CString}
    (hd : h.content? d = some (.dictionary replyPort slots)) (hthere : There h value) (hroom : Room h refs value)
    (hown : ∀ i, findKey key slots.used = some (some i) → d ∈ refs) :
    Unless .fault (Balanced kids · refs ∅) (dictionarySet d replyPort slots key value h) := by
  unfold dictionarySet
  cases hfind : findKey key slots.used with
  | none => exact .stop
  | some found =>
    cases found with
    | some i =>
      obtain ⟨old, hold⟩ := findKey_some hfind
      cases value with
      | some v =>
        refine overwrite_balanced (retain_balanced hb hthere hroom) ((content?_retain _ h d).trans hd) ?_ (hown i hfind)
        have := filterMap_set (fun e : Option (CString × Pointer) => e.bind (·.2.ref?)) hold (some (key, v))
        simpa [kids, refsOf, hold] using this
      | none =>
        refine overwrite_balanced (p := none) (by simpa [refsOf] using hb) hd ?_ (hown i hfind)
        have := filterMap_swapRemove (fun e : Option (CString × Pointer) => e.bind (·.2.ref?)) hold
        simpa [kids, refsOf, hold] using this
    | none =>
      cases value with
      | some v =>
        refine .ok (add_balanced hb hd hthere hroom ?_)
        have := filterMap_push (fun e : Option (CString × Pointer) => e.bind (·.2.ref?)) slots.used (some (key, v))
        simpa [kids, refsOf, -List.filterMap_append] using this
      | none => exact .ok hb

theorem dictionarySetValue_balanced {dict : Option Pointer} {key : Option CString}
    (hdict : There h dict) (hthere : There h value) (hroom : Room h refs value)
    (hown : dictionaryGetValue dict key h = some none ∨ Owned refs dict) :
    Unless .fault (Balanced kids · refs ∅) (dictionarySetValue dict key value h) := by
  unfold dictionarySetValue
  split
  · rename_i d key
    split
    · rename_i hd
      have := hdict d (by simp [refsOf, Pointer.ref?])
      simp [Heap.content?] at hd
      simp [hd] at this
    · rename_i replyPort slots hd
      refine dictionarySet_balanced hb hd hthere hroom fun i hfind => ?_
      rcases hown with hnone | hown
      · obtain ⟨old, hold⟩ := findKey_some hfind
        simp [dictionaryGetValue, hd, hfind, hold] at hnone
      · exact hown d (by simp [refsOf, Pointer.ref?])
    · exact .ok hb
  · exact .ok hb

theorem arrayAppendValue_balanced {array : Option Pointer} (harray : There h array)
    (hthere : There h value) (hroom : Room h refs value) : Balanced kids (arrayAppendValue array value h) refs ∅ := by
  unfold arrayAppendValue
  split
  · rename_i a v
    split
    · rename_i ha
      have := harray a (by simp [refsOf, Pointer.ref?])
      simp [Heap.content?] at ha
      simp [ha] at this
    · rename_i slots ha
      refine add_balanced hb ha hthere hroom ?_
      have := filterMap_push (fun p : Option Pointer => p.bind Pointer.ref?) slots.used (some v)
      simpa [kids, refsOf, -List.filterMap_append] using this
    · exact hb
  · exact hb

/-- Old objects stay what they are. -/
theorem There.create {p : Option Pointer} (hp : There h p) (n : New) : There (n.create h).2 p := by
  intro r hr
  have hlive := hp r hr
  have := content?_create (hb.bound r hlive) n
  rw [← Option.isSome_map (f := (·.content)), ← Heap.content?] at hlive ⊢
  rwa [this]

theorem arraySet_balanced {array : Option Pointer} {index : Nat} {n : New} (harray : There h array)
    (hown : arrayGetCount array h ≤ index ∨ Owned refs array) :
    Unless .fault (Balanced kids · refs ∅) (arraySet array index n h) := by
  unfold arraySet
  split
  · rename_i a
    have hlive := harray a (by simp [refsOf, Pointer.ref?])
    split
    · rename_i ha
      simp [Heap.content?] at ha
      simp [ha] at hlive
    · rename_i slots ha
      split
      · exact .ok hb
      · rename_i hlt
        have hslot : slots.used[index]? = some slots.used[index] := List.getElem?_eq_getElem (Nat.lt_of_not_le hlt)
        have hmine : a ∈ refs := by
          rcases hown with hle | hown
          · exact absurd (by simpa [arrayGetCount, ha] using hle) hlt
          · exact hown a (by simp [refsOf, Pointer.ref?])
        refine overwrite_balanced (create_balanced hb n) ((content?_create (hb.bound a hlive) n).trans ha) ?_ hmine
        have := filterMap_set (fun p : Option Pointer => p.bind Pointer.ref?) hslot (n.create h).1
        simpa [kids, refsOf, hslot] using this
    · exact .ok hb
  · exact .ok hb

/-- A new object has the one reference. -/
theorem create_room (n : New) :
    There (n.create h).2 (n.create h).1 ∧ Room (n.create h).2 (refsOf (n.create h).1 + refs) (n.create h).1 := by
  have hb' := create_balanced hb n
  rw [New.create] at hb' ⊢
  cases hmade : n.made with
  | null => simp [There, Room, refsOf]
  | singleton s => simp [There, Room, refsOf, Pointer.ref?]
  | object v =>
    rw [hmade] at hb'
    have hcell : (h.alloc (.value v)).cells h.next = some ⟨1, .value v⟩ := by simp [Heap.alloc]
    have hcount := hb'.count h.next _ hcell
    have hone : (1 : Int32).toInt = 1 := rfl
    have htotal : total kids (h.alloc (.value v)) (refsOf (some (.object h.next)) + refs) ∅ h.next = 1 := by
      rw [hone] at hcount
      exact_mod_cast hcount.symm
    constructor
    · intro r hr
      obtain rfl : h.next = r := by simpa [refsOf, Pointer.ref?, eq_comm] using hr
      simp [hcell]
    · intro r hr
      obtain rfl : h.next = r := by simpa [refsOf, Pointer.ref?, eq_comm] using hr
      rw [total] at htotal
      rw [slotsHolding, htotal]
      norm_num

theorem dictionarySetNew_balanced {dict : Option Pointer} {key : Option CString} {n : New}
    (hdict : There h dict) (hown : dictionaryGetValue dict key h = some none ∨ Owned refs dict) :
    Unless .fault (Balanced kids · refs ∅) (dictionarySetNew dict key n h) := by
  obtain ⟨hthere, hroom⟩ := create_room hb n
  have hget : dictionaryGetValue dict key (n.create h).2 = dictionaryGetValue dict key h := by
    rcases dict with _ | _ | d
    · rfl
    · rfl
    · have hd : d < h.next := hb.bound d (hdict d (by simp [refsOf, Pointer.ref?]))
      cases key with
      | none => rfl
      | some key => simp only [dictionaryGetValue, content?_create hd n]
  have hset := dictionarySetValue_balanced (create_balanced hb n) (hdict.create hb n) hthere hroom (by
    rw [hget]
    exact hown.imp_right fun hown r hr => Multiset.mem_add.mpr (.inr (hown r hr)))
  refine hset.bind fun h₁ hb₁ => ?_
  obtain ⟨h₂, hrelease, hb₂⟩ := release_balanced hb₁
  rw [hrelease]
  exact .ok hb₂

end

variable {l : Ledger}

theorem step_balanced {c : Call} (hb : Balanced kids l.heap l.clients ∅) (hlegal : c.Legal l) (hsafe : c.Safe l) :
    Unless .fault (Balanced kids · (c.clients l.heap l.clients) ∅) (c.step l.heap) := by
  have hempty : ∀ {g : Heap} {x : Content}, Balanced kids g l.clients ∅ → kids x = [] → Balanced kids (g.alloc x) (g.next ::ₘ l.clients) ∅ := by
    intro g x hg hx
    exact Balanced.alloc (by simpa [hx] using hg)
  cases c with
  | create n =>
    exact .ok (create_balanced hb n)
  | dictionaryCreate entries =>
    cases hlegal
    exact .ok (hempty hb rfl)
  | dictionaryCreateReply original =>
    refine .ok ?_
    change Balanced kids (dictionaryCreateReply original l.heap) (l.heap.next ::ₘ l.clients) ∅
    unfold dictionaryCreateReply
    split
    · rename_i r
      split
      · rename_i hr
        have := hlegal r (by simp [refsOf, Pointer.ref?])
        simp [Heap.content?] at hr
        simp [hr] at this
      · exact hempty hb rfl
      · exact hempty hb rfl
    · exact hempty hb rfl
  | arrayCreate objects =>
    cases hlegal
    exact .ok (hempty hb rfl)
  | retain p =>
    exact .ok (retain_balanced hb hlegal hsafe)
  | release p =>
    have hclients : (refsOf p : Multiset Nat) + (l.clients - refsOf p) = l.clients := add_tsub_cancel_of_le (refsOf_le hlegal)
    rw [← hclients] at hb
    obtain ⟨h', hrelease, hb'⟩ := release_balanced hb
    rw [Call.step, hrelease]
    exact .ok hb'
  | dictionarySetValue dict key value => exact dictionarySetValue_balanced hb hlegal.1 hlegal.2 hsafe.1 hsafe.2
  | dictionarySetNew dict key n => exact dictionarySetNew_balanced hb hlegal hsafe
  | dictionaryGetValue dict key =>
    rw [Call.step]
    split
    · exact .stop
    · exact .ok hb
  | arrayAppendValue array value =>
    exact .ok (arrayAppendValue_balanced hb hlegal.1 hlegal.2 hsafe)
  | arraySet array index n =>
    exact arraySet_balanced hb hlegal hsafe

/-! ## Runs -/

/-- With counts that are references every release ends, and without a hole in a dictionary no call
    faults. -/
def Ledger.Inv (l : Ledger) : Prop := Balanced kids l.heap l.clients ∅ ∧ ∃ stored, Objects.Inv (fun _ => True) l.heap stored

theorem Call.Legal.keeps {c : Call} (hc : c.Legal l) (stored : Nat → Stored) : c.Keeps (fun _ => True) ⟨l.heap, stored⟩ := by
  cases c with
  | dictionaryCreate entries =>
    cases hc
    exact ⟨List.Pairwise.nil, List.nodup_nil⟩
  | arrayCreate objects => trivial
  | arrayAppendValue array value => exact fun _ _ _ _ => trivial
  | arraySet array index n =>
    rcases array with _ | _ | a
    · trivial
    · trivial
    · exact fun _ _ _ _ => trivial
  | _ => trivial

theorem Ledger.Inv.step (hl : l.Inv) {c : Call} (hlegal : c.Legal l) (hsafe : c.Safe l) : ∃ l', l.step c = some l' ∧ l'.Inv := by
  obtain ⟨hb, stored, hi⟩ := hl
  have hends := step_balanced hb hlegal hsafe
  have hinv := step_inv (w := ⟨l.heap, stored⟩) hi c (hlegal.keeps stored)
  rw [Ledger.step]
  generalize c.step l.heap = result at hends hinv
  cases hends with
  | stop => cases hinv
  | ok hb' =>
    cases hinv with
    | ok hi' => exact ⟨_, rfl, hb', _, hi'⟩

theorem Ledger.Inv.counted (hl : l.Inv) : l.Counted := by
  obtain ⟨hb, -⟩ := hl
  have hdestroyed : ∀ r, r ∈ l.heap.destroyed.map (·.1) ↔ r < l.heap.next ∧ l.heap.cells r = none := by
    intro r
    simpa using hb.destroyed_iff r
  have hlive : ∀ r, (l.heap.cells r).isSome ↔ 0 < l.clients.count r + slotsHolding l.heap r := fun r => hb.alive r (by simp)
  refine ⟨hb.count, fun r => ?_, fun r hr => ?_, hb.destroyed_once, hb.no_stale⟩
  · rw [hdestroyed, ← Option.not_isSome_iff_eq_none, hlive, Nat.not_lt, Nat.le_zero]
  · rw [hdestroyed, not_and]
    simp [hr, Option.isSome_iff_ne_none]

/-- After every part of a sequence of calls the counts are the references, if an entry is given up
    only in a container that the client owns a reference of and every reference can be counted. -/
theorem counts_are_references (calls : List Call) (hlegal : Run.Guarded Ledger.step (fun l c => c.Legal l) .empty calls)
    (hsafe : Run.Guarded Ledger.step (fun l c => c.Safe l) .empty calls) (n : Nat) :
    ∃ l, (calls.take n).foldlM Ledger.step .empty = some l ∧ l.Counted := by
  have hempty : Ledger.Inv .empty := ⟨Balanced.empty kids, fun _ _ => none, fun r x hx => by cases hx⟩
  have hstep : ∀ (l : Ledger) (c : Call), l.Inv → c.Legal l ∧ c.Safe l → ∃ l', l.step c = some l' ∧ l'.Inv :=
    fun l c hl hc => hl.step hc.1 hc.2
  obtain ⟨l, hrun, hl⟩ := Run.Guarded.reaches hstep n calls Ledger.empty hempty (Run.Guarded.and calls Ledger.empty hlegal hsafe)
  exact ⟨l, hrun, hl.counted⟩

instance (h : Heap) (p : Option Pointer) : Decidable (There h p) := inferInstanceAs (Decidable (∀ r ∈ refsOf p, _))

instance (clients : Multiset Nat) (p : Option Pointer) : Decidable (Owned clients p) := inferInstanceAs (Decidable (∀ r ∈ refsOf p, _))

instance (h : Heap) (clients : Multiset Nat) (p : Option Pointer) : Decidable (Room h clients p) :=
  inferInstanceAs (Decidable (∀ r ∈ refsOf p, _))

instance (l : Ledger) : ∀ c : Call, Decidable (c.Legal l)
  | .create _ => .isTrue trivial
  | .dictionaryCreate entries => decidable_of_iff (entries.isEmpty) (by simp [Call.Legal])
  | .arrayCreate objects => decidable_of_iff (objects.isEmpty) (by simp [Call.Legal])
  | .dictionaryCreateReply p | .retain p | .dictionaryGetValue p _ | .dictionarySetNew p _ _ | .arraySet p _ _ =>
    inferInstanceAs (Decidable (There l.heap p))
  | .release p => inferInstanceAs (Decidable (Owned l.clients p))
  | .dictionarySetValue dict _ value => inferInstanceAs (Decidable (There l.heap dict ∧ There l.heap value))
  | .arrayAppendValue array value => inferInstanceAs (Decidable (There l.heap array ∧ There l.heap value))

instance (l : Ledger) : ∀ c : Call, Decidable (c.Safe l)
  | .retain p => inferInstanceAs (Decidable (Room l.heap l.clients p))
  | .dictionarySetValue dict _ value => inferInstanceAs (Decidable (Room l.heap l.clients value ∧ (_ = _ ∨ Owned l.clients dict)))
  | .dictionarySetNew dict _ _ => inferInstanceAs (Decidable (_ = _ ∨ Owned l.clients dict))
  | .arrayAppendValue _ value => inferInstanceAs (Decidable (Room l.heap l.clients value))
  | .arraySet array index _ => inferInstanceAs (Decidable (_ ≤ index ∨ Owned l.clients array))
  | .create _ | .dictionaryCreate _ | .dictionaryCreateReply _ | .arrayCreate _ | .release _ | .dictionaryGetValue .. => .isTrue trivial

/-- A dictionary that holds itself is emptied before it is released. -/
def sharedCalls : List Call :=
  [.dictionaryCreate [], .dictionarySetValue (some (.object 0)) (some keyA) (some (.object 0)),
    .dictionarySetNew (some (.object 0)) (some keyB) (.uint64 7), .arrayCreate [], .arrayAppendValue (some (.object 2)) (some (.object 0)),
    .dictionarySetValue (some (.object 0)) (some keyA) none, .release (some (.object 0)), .arraySet (some (.object 2)) 0 (.string none),
    .release (some (.object 2))]

theorem counts_are_references_shared : ∃ l, (sharedCalls.take 9).foldlM Ledger.step .empty = some l ∧ l.Counted :=
  counts_are_references sharedCalls (by decide) (by decide) 9

/-- The dictionary is held by its own entry alone when that is removed. -/
def cyclicCalls : List Call :=
  [.dictionaryCreate [], .dictionarySetValue (some (.object 0)) (some keyA) (some (.object 0)), .release (some (.object 0)),
    .dictionarySetValue (some (.object 0)) (some keyA) none]

/-- It is destroyed inside its destruction, however deep: the last call does not return. -/
theorem an_entry_that_holds_its_container : Run.Guarded Ledger.step (fun l c => c.Legal l) .empty cyclicCalls ∧
    (∃ l, (cyclicCalls.take 3).foldlM Ledger.step .empty = some l ∧ (∀ fuel ≤ 2 ^ 31, RefCount.release kids fuel 0 l.heap = none) ∧
      Call.step l.heap (.dictionarySetValue (some (.object 0)) (some keyA) none) = .error .endless) ∧
    ¬ ∃ l, cyclicCalls.foldlM Ledger.step .empty = some l ∧ l.Counted := by
  have hnone : cyclicCalls.foldlM Ledger.step .empty = none := rfl
  refine ⟨by decide, ⟨_, rfl, fun fuel hfuel => ?_, rfl⟩, fun ⟨l, hl, _⟩ => by cases hnone.symm.trans hl⟩
  have hself : kids (.dictionary none ((Slots.create []).push (keyA, .object 0))) = [0] := rfl
  refine release_self hself fuel (n := 1) rfl (by decide) ?_
  change (fuel : Int) < 1 + 2 ^ 31
  omega

end Panthera.Xpc.Objects
