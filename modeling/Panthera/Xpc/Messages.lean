/-
  Panthera.Xpc.Messages — dictionaries in Mach messages
  (`libxpc_impl.c`: `_xpc_mach_send`, `_xpc_mach_receive`,
  `xpc_connection_send_message`, `xpc_connection_send_message_with_reply_sync`).

  Both ways of sending put the serialized dictionary behind a message header, in a message as
  long as it takes. The receiver has a buffer of `XPC_MACH_MSG_MAX` bytes for what follows the
  header. The kernel takes a message or refuses it, and keeps the order; a message that does
  not fit into the receiver's buffer with its trailer fails the receive and is discarded.

  Main result: `delivered_iff`; a larger dictionary is lost while its send is reported as
  successful (`a_large_dictionary_is_lost`).
-/

import Panthera.Lib.Run
import Panthera.Xpc.Serialize

namespace Panthera.Xpc

open Lib Lib.Bytes Lib.Pages Lib.Wire

/-! ## Messages -/

/-- `sizeof(mach_msg_header_t)` -/
def headerSize : Nat := 24

/-- `XPC_MACH_MSG_MAX` -/
def machMsgMax : Nat := 8192

/-- What the kernel does: which sizes it takes, and how long a trailer it puts behind a message. -/
structure Kernel where
  takes : Nat → Bool
  trailer : Nat
  header_le : ∀ n, takes n → headerSize ≤ n

/-- `msgh_size`, and the bytes behind the header. -/
structure Message where
  size : Nat
  body : List UInt8
deriving DecidableEq

/-- `msgh_size` has 32 bits, and so much of the message is sent. -/
def machMessage (payload : List UInt8) : Message :=
  let size := (headerSize + payload.length) % 2 ^ 32
  ⟨size, payload.take (size - headerSize)⟩

/-- `mach_msg` with `MACH_SEND_MSG`; `none` if it does not report success. -/
def machSend (k : Kernel) (payload : List UInt8) (queue : List Message) : Option (List Message) :=
  let msg := machMessage payload
  if k.takes msg.size then some (queue ++ [msg]) else none

/-- The sending calls; `none` if the message was not sent. -/
def connectionSend (k : Kernel) (d : Dict) (queue : List Message) : Option (List Message) := do
  let payload ← serializeDict d
  machSend k payload queue

/-- `_xpc_mach_receive` of one message: `none` is a fault, `some none` NULL. -/
def machReceive (k : Kernel) (msg : Message) : Option (Option Dict) :=
  if headerSize + machMsgMax < msg.size + k.trailer then some none
  else if msg.size - headerSize = 0 then some none
  else deserializeDict msg.body

/-- What the receives return, one after the other. -/
def machReceives (k : Kernel) (queue : List Message) : List (Option (Option Dict)) := queue.map (machReceive k)

/-! ## What comes out of a buffer is small -/

/-- An entry as it may come out of `n` bytes. -/
def Small (n : Nat) (e : CString × Value) : Prop := e.1.bytes.length ≤ n ∧ (valueBytes e.2).length ≤ n + 8 ∧ e.2.Backed

section

variable {buf : List UInt8} {d d' : Dict}

theorem cstringAt_length {off : Nat} {s : CString} (h : cstringAt? buf off = some s) : s.bytes.length ≤ buf.length := by
  rw [cstringAt?] at h
  split at h
  · cases h
    exact Nat.le_trans (List.takeWhile_prefix _).length_le (by simp)
  · cases h

theorem sliceAt_length {off n : Nat} {b : List UInt8} (h : sliceAt? buf off n = some b) : b.length ≤ buf.length := by
  rw [sliceAt?] at h
  split at h
  · cases h
    rw [List.length_take, List.length_drop]
    omega
  · cases h

theorem setValue_length (d : Dict) (key : CString) (v : Value) : (d.setValue key (some v)).entries.length ≤ d.entries.length + 1 := by
  unfold Dict.setValue
  split
  · simp
  · rename_i heq
    cases heq
  · rename_i heq
    cases heq
  · simp

theorem dataCreate_buffer (b : List UInt8) : (valueBytes (.data (dataCreate (.buffer b)))) = b ∧ (Value.data (dataCreate (.buffer b))).Backed := by
  by_cases hb : 0 < b.length
  · simp [dataCreate, dif_pos hb, valueBytes, Value.Backed]
  · obtain rfl : b = [] := List.length_eq_zero_iff.mp (Nat.eq_zero_of_not_pos hb)
    simp [dataCreate, valueBytes, Value.Backed]

/-- A value is read and set, or the type is not known. -/
theorem readValue_small {type : UInt32} {k p : Nat} {len : UInt32} (h : readValue buf d type k p len = some d') :
    d' = d ∨ ∃ e, Small buf.length e ∧ d' = d.setValue e.1 (some e.2) := by
  unfold readValue at h
  -- the numbers: eight bytes at most
  have hnumber : ∀ {α : Type} {r : Option α} {f : α → Value}, (∀ a, (valueBytes (f a)).length ≤ 8 ∧ (f a).Backed) →
      (do let v ← r; let key ← cstringAt? buf k; some (d.setValue key (some (f v)))) = some d' →
      ∃ e, Small buf.length e ∧ d' = d.setValue e.1 (some e.2) := by
    intro α r f hf h
    obtain ⟨v, -, h⟩ := Option.bind_eq_some_iff.mp h
    obtain ⟨key, hkey, h⟩ := Option.bind_eq_some_iff.mp h
    exact ⟨(key, f v), ⟨cstringAt_length hkey, Nat.le_trans (hf v).1 (Nat.le_add_left _ _), (hf v).2⟩, (Option.some.inj h).symm⟩
  split at h
  · obtain ⟨key, hkey, h⟩ := Option.bind_eq_some_iff.mp h
    obtain ⟨s, hs, h⟩ := Option.bind_eq_some_iff.mp h
    have hlen := cstringAt_length hs
    refine .inr ⟨(key, .string s), ⟨cstringAt_length hkey, ?_, trivial⟩, (Option.some.inj h).symm⟩
    simp only [valueBytes, List.length_append, List.length_cons, List.length_nil]
    omega
  · split at h
    · exact .inr (hnumber (f := fun v : UInt64 => .int64 v.toInt64) (fun a => ⟨by simp [valueBytes], trivial⟩) h)
    · split at h
      · exact .inr (hnumber (f := .uint64) (fun a => ⟨by simp [valueBytes], trivial⟩) h)
      · split at h
        · exact .inr (hnumber (f := .double) (fun a => ⟨by simp [valueBytes], trivial⟩) h)
        · split at h
          · exact .inr (hnumber (f := fun b : UInt8 => .bool (b ≠ 0)) (fun a => ⟨by simp [valueBytes], trivial⟩) h)
          · split at h
            · obtain ⟨b, hb, h⟩ := Option.bind_eq_some_iff.mp h
              obtain ⟨key, hkey, h⟩ := Option.bind_eq_some_iff.mp h
              obtain ⟨hbytes, hbacked⟩ := dataCreate_buffer b
              refine .inr ⟨(key, .data (dataCreate (.buffer b))), ⟨cstringAt_length hkey, ?_, hbacked⟩, (Option.some.inj h).symm⟩
              have hlen := sliceAt_length hb
              rw [hbytes]
              omega
            · split at h
              · obtain ⟨key, hkey, h⟩ := Option.bind_eq_some_iff.mp h
                exact .inr ⟨(key, .null), ⟨cstringAt_length hkey, by simp [valueBytes], trivial⟩, (Option.some.inj h).symm⟩
              · exact .inl (Option.some.inj h).symm

theorem setValue_small {n : Nat} {e : CString × Value} (hd : ∀ e ∈ d.entries, Small n e) (he : Small n e) :
    ∀ e' ∈ (d.setValue e.1 (some e.2)).entries, Small n e' := by
  intro e' he'
  rw [mem_setValue] at he'
  split at he'
  · rename_i hkey
    obtain rfl : e = e' := Prod.ext hkey.symm (Option.some.inj he')
    exact he
  · exact hd e' he'

/-- A turn of the loop takes twelve bytes and sets one entry at most. -/
theorem readEntries_small : ∀ {count p : Nat} {d d' : Dict}, readEntries buf count p d = some d' →
    (∀ e ∈ d.entries, Small buf.length e) →
    (∀ e ∈ d'.entries, Small buf.length e) ∧ d'.entries.length ≤ d.entries.length + (buf.length - p) / 12 := by
  intro count
  induction count with
  | zero =>
    intro p d d' h hd
    cases h
    exact ⟨hd, Nat.le_add_right _ _⟩
  | succ count ih =>
    intro p d d' h hd
    have hstop : some d = some d' → (∀ e ∈ d'.entries, Small buf.length e) ∧
        d'.entries.length ≤ d.entries.length + (buf.length - p) / 12 := by
      rintro h
      cases h
      exact ⟨hd, Nat.le_add_right _ _⟩
    rw [readEntries] at h
    split at h
    · exact hstop h
    · obtain ⟨type, -, h⟩ := Option.bind_eq_some_iff.mp h
      obtain ⟨keyPlen, -, h⟩ := Option.bind_eq_some_iff.mp h
      simp only at h
      split at h
      · exact hstop h
      · split at h
        · exact hstop h
        · obtain ⟨len, -, h⟩ := Option.bind_eq_some_iff.mp h
          split at h
          · exact hstop h
          · obtain ⟨d₁, hvalue, hrest⟩ := Option.bind_eq_some_iff.mp h
            obtain ⟨hd₁, hlen₁⟩ : (∀ e ∈ d₁.entries, Small buf.length e) ∧ d₁.entries.length ≤ d.entries.length + 1 := by
              rcases readValue_small hvalue with rfl | ⟨e, he, rfl⟩
              · exact ⟨hd, Nat.le_succ _⟩
              · exact ⟨setValue_small hd he, setValue_length _ _ _⟩
            obtain ⟨hd', hlen'⟩ := ih hrest hd₁
            exact ⟨hd', by omega⟩

/-- What is read from the receiver's buffer would take few bytes. -/
theorem deserializeDict_small (h : deserializeDict buf = some (some d)) (hbuf : buf.length ≤ machMsgMax) :
    (∀ e ∈ d.entries, e.2.Backed) ∧ wireSize d < 2 ^ 24 := by
  obtain ⟨hsmall, hcount⟩ : (∀ e ∈ d.entries, Small buf.length e) ∧ d.entries.length ≤ (buf.length - 16) / 12 := by
    unfold deserializeDict at h
    split at h
    · cases h
    · obtain ⟨magic, -, h⟩ := Option.bind_eq_some_iff.mp h
      obtain ⟨version, -, h⟩ := Option.bind_eq_some_iff.mp h
      obtain ⟨count, -, h⟩ := Option.bind_eq_some_iff.mp h
      split at h
      · cases h
      · obtain ⟨d₁, hread, hd⟩ := Option.map_eq_some_iff.mp h
        cases hd
        have := readEntries_small hread (by simp [Dict.empty])
        simpa [Dict.empty] using this
  refine ⟨fun e he => (hsmall e he).2.2, ?_⟩
  have hentry : ∀ n ∈ (supported d).map fun e => (entryBytes e).length, n ≤ 16411 := by
    intro n hn
    obtain ⟨e, he, rfl⟩ := List.mem_map.mp hn
    obtain ⟨hkey, hval, -⟩ := hsmall e (List.mem_filter.mp he).1
    rw [machMsgMax] at hbuf
    rw [entryBytes_length, roundUp4, roundUp4]
    omega
  have hsum := List.sum_le_card_nsmul _ _ hentry
  have hlen : (supported d).length ≤ d.entries.length := List.length_filter_le _ _
  rw [List.length_map, smul_eq_mul] at hsum
  rw [machMsgMax] at hbuf
  rw [wireSize]
  have hmul : (supported d).length * 16411 ≤ 700 * 16411 := Nat.mul_le_mul_right _ (by omega)
  omega

end

/-! ## What arrives -/

/-- Data without a buffer cannot be serialized. -/
theorem serializeDict_backed {d : Dict} {buf : List UInt8} (h : serializeDict d = some buf) : ∀ e ∈ supported d, e.2.Backed := by
  intro e he
  obtain ⟨he, hsup⟩ := List.mem_filter.mp he
  obtain ⟨st, hfilled, -⟩ := Option.map_eq_some_iff.mp h
  obtain ⟨_, -, hfilled⟩ := Option.bind_eq_some_iff.mp hfilled
  obtain ⟨_, -, hfilled⟩ := Option.bind_eq_some_iff.mp hfilled
  obtain ⟨_, -, hfilled⟩ := Option.bind_eq_some_iff.mp hfilled
  obtain ⟨_, -, hentries⟩ := Option.bind_eq_some_iff.mp hfilled
  obtain ⟨s, s', hentry⟩ := Run.exists_of_foldlM hentries e he
  rw [writeEntry, if_neg (by simpa using hsup)] at hentry
  obtain ⟨_, -, hentry⟩ := Option.bind_eq_some_iff.mp hentry
  obtain ⟨_, -, hentry⟩ := Option.bind_eq_some_iff.mp hentry
  obtain ⟨_, -, hentry⟩ := Option.bind_eq_some_iff.mp hentry
  obtain ⟨_, -, hvalue⟩ := Option.bind_eq_some_iff.mp hentry
  cases hv : e.2 with
  | data b =>
    simp only [writeValue, hv] at hvalue
    split at hvalue
    · obtain ⟨bytes, hptr, -⟩ := Option.bind_eq_some_iff.mp hvalue
      exact .inl (by simp [hptr])
    · exact .inr (by omega)
  | _ => trivial

/-- Dictionaries that read the same have the same entries. -/
theorem entries_perm {d d' : Dict} (h : ∀ key, d'.getValue key = d.getValue key) : d'.entries.Perm d.entries := by
  refine (List.perm_ext_iff_of_nodup (List.Nodup.of_map _ d'.keys_nodup) (List.Nodup.of_map _ d.keys_nodup)).mpr fun e => ?_
  have hmem : ∀ d : Dict, e ∈ d.entries ↔ d.getValue e.1 = some e.2 := fun d => getValue_eq_some.symm
  rw [hmem, hmem, h]

theorem wireSize_perm {d d' : Dict} (h : d'.entries.Perm d.entries) : wireSize d' = wireSize d := by
  rw [wireSize, wireSize, supported, supported, ((h.filter _).map _).sum_nat]

/-- A dictionary whose message is short enough is sent whole. -/
theorem machMessage_dict {d : Dict} (hb : ∀ e ∈ supported d, e.2.Backed) (hsize : wireSize d < 2 ^ 24) :
    serializeDict d = some (dictBytes d) ∧ machMessage (dictBytes d) = ⟨headerSize + wireSize d, dictBytes d⟩ := by
  have hlen := dictBytes_length d
  have hmod : (headerSize + wireSize d) % 2 ^ 32 = headerSize + wireSize d := Nat.mod_eq_of_lt (by rw [headerSize]; omega)
  refine ⟨serializeDict_eq hb (by omega), ?_⟩
  simp only [machMessage, hlen, hmod, Nat.add_sub_cancel_left, List.take_of_length_le (Nat.le_of_eq hlen)]

/-- A dictionary that was sent arrives exactly if it fits the receiver's buffer with its trailer. -/
theorem delivered_iff (k : Kernel) (d : Dict) (hwire : ∀ e ∈ d.entries, wireType e.2 ≠ 0) (queue queue' : List Message)
    (hsend : connectionSend k d queue = some queue') :
    (∃ d', (machReceives k queue')[queue.length]? = some (some (some d')) ∧ ∀ key, d'.getValue key = d.getValue key) ↔
      headerSize + wireSize d + k.trailer ≤ headerSize + machMsgMax := by
  obtain ⟨payload, hser, hsent⟩ := Option.bind_eq_some_iff.mp hsend
  have hqueue : queue' = queue ++ [machMessage payload] := by
    rw [machSend] at hsent
    split at hsent
    · exact (Option.some.inj hsent).symm
    · cases hsent
  have hreceives : (machReceives k queue')[queue.length]? = some (machReceive k (machMessage payload)) := by
    rw [hqueue, machReceives, List.map_append, List.getElem?_append_right (by simp)]
    simp
  have hall : ∀ d' : Dict, d'.entries.Perm d.entries → supported d' = d'.entries := fun d' hperm =>
    List.filter_eq_self.mpr fun e he => by simpa using hwire e (hperm.mem_iff.mp he)
  rw [hreceives]
  constructor
  · rintro ⟨d', hd', hget⟩
    have hperm := entries_perm hget
    rw [Option.some.injEq, machReceive] at hd'
    split at hd'
    · cases hd'
    · rename_i hfits
      split at hd'
      · cases hd'
      · -- what has come out of the buffer is short, so that nothing was cut
        have hbody : (machMessage payload).body.length ≤ machMsgMax := by
          have := List.length_take_le ((machMessage payload).size - headerSize) payload
          simp only [machMessage] at this hfits ⊢
          omega
        obtain ⟨hbacked, hsmall⟩ := deserializeDict_small hd' hbody
        rw [wireSize_perm hperm] at hsmall
        have hb : ∀ e ∈ supported d, e.2.Backed := fun e he => hbacked e (hperm.mem_iff.mpr (List.mem_filter.mp he).1)
        obtain ⟨hser', hmsg⟩ := machMessage_dict hb hsmall
        obtain rfl : dictBytes d = payload := Option.some.inj (hser'.symm.trans hser)
        rw [hmsg] at hfits
        exact Nat.le_of_not_lt hfits
  · intro hfits
    have hsmall : wireSize d < 2 ^ 24 := by
      simp only [machMsgMax] at hfits
      omega
    have hb := serializeDict_backed hser
    obtain ⟨hser', hmsg⟩ := machMessage_dict hb hsmall
    obtain ⟨buf, d', hbuf, hdes, hentries⟩ := deserializeDict_serializeDict hb (by omega)
    obtain rfl : dictBytes d = payload := Option.some.inj (hser'.symm.trans hser)
    obtain rfl : dictBytes d = buf := Option.some.inj (hser'.symm.trans hbuf)
    refine ⟨d', ?_, fun key => by rw [Dict.getValue, hentries, hall d (List.Perm.refl _), Dict.getValue]⟩
    have hpos : wireSize d ≠ 0 := by rw [wireSize]; omega
    rw [hmsg, machReceive, if_neg (Nat.not_lt_of_le hfits), if_neg (by simpa using hpos), hdes]

/-- A kernel that takes every message and puts the shortest trailer behind it. -/
def openKernel : Kernel := ⟨fun n => headerSize ≤ n, 8, fun _ h => of_decide_eq_true h⟩

/-- One key, with data of so many zeros. -/
def dataDict (n : Nat) : Dict := Dict.empty.setData keyA (.buffer (zeros n))

theorem dataDict_entries (n : Nat) : (dataDict n).entries = [(keyA, .data (dataCreate (.buffer (zeros n))))] := rfl

theorem delivered_iff_small : (∃ d', (machReceives openKernel [machMessage (dictBytes (dataDict 4))])[0]? = some (some (some d')) ∧
      ∀ key, d'.getValue key = (dataDict 4).getValue key) ↔ headerSize + wireSize (dataDict 4) + 8 ≤ headerSize + machMsgMax :=
  delivered_iff openKernel (dataDict 4) (by decide) [] [machMessage (dictBytes (dataDict 4))] (by decide)

theorem wireSize_dataDict (n : Nat) : wireSize (dataDict n) = 32 + roundUp4 n := by
  have hkey : roundUp4 (keyA.bytes.length + 1) = 4 := by decide
  simp [wireSize, supported, dataDict_entries, wireType, entryBytes, (dataCreate_buffer _).1, hkey]
  omega

/-- A payload of exactly `XPC_MACH_MSG_MAX` bytes leaves no room for the trailer: its send is reported
as successful, and the receiver gets NULL. -/
theorem a_large_dictionary_is_lost : ∃ payload, connectionSend openKernel (dataDict 8160) [] = some [machMessage payload] ∧
    machReceives openKernel [machMessage payload] = [some none] ∧ ∀ e ∈ (dataDict 8160).entries, wireType e.2 ≠ 0 := by
  have hsize : wireSize (dataDict 8160) = machMsgMax := by rw [wireSize_dataDict, show roundUp4 8160 = 8160 by decide, machMsgMax]
  have hb : ∀ e ∈ supported (dataDict 8160), e.2.Backed := by
    simp [supported, dataDict_entries, (dataCreate_buffer _).2]
  obtain ⟨hser, hmsg⟩ := machMessage_dict hb (by rw [hsize, machMsgMax]; omega)
  refine ⟨dictBytes (dataDict 8160), ?_, ?_, by simp [dataDict_entries, wireType]⟩
  · simp [connectionSend, hser, machSend, hmsg, openKernel]
  · simp [machReceives, machReceive, hmsg, hsize, openKernel, headerSize, machMsgMax]

end Panthera.Xpc
