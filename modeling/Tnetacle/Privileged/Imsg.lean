import Mathlib.Data.List.TakeWhile
import Tnetacle.Library.Framing
import Tnetacle.Library.Memory

/-! # The messages between the two processes

`imsg_get` takes one message from what `imsg_read` has collected. The header is in the order of
the host, and its length, which counts the header, has a minimum and a maximum.
-/

namespace Tnetacle.Privileged

open ByteOrder Framing

def imsgHeaderSize : ℕ := 16
def maxImsgsize : ℕ := 16384

/-- A `struct imsg`; the length of the header is that of the data. -/
structure Imsg where
  type : Long
  flags : Word
  peerid : Long
  pid : Long
  data : List Byte
  le_max : data.length ≤ maxImsgsize - imsgHeaderSize
  deriving DecidableEq

def imsgCreateDev : Long := 1
def imsgSetIp : Long := 2

/-- What `imsg_get` returns: nothing is ready (`0`), an error (`-1`), or a message. -/
inductive Got
  | nothing
  | error
  | message (imsg : Imsg) (rest : List Byte)
  deriving DecidableEq

/-- `imsg_get` on what the read buffer holds; `malloc` says whether the data can be allocated. -/
def imsgGet (host : Endian) (malloc : Bool) : List Byte → Got
  | t₀ :: t₁ :: t₂ :: t₃ :: l₀ :: l₁ :: f₀ :: f₁ :: p₀ :: p₁ :: p₂ :: p₃ :: q₀ :: q₁ :: q₂ :: q₃ ::
      body =>
    let len := (load host l₀ l₁).toNat
    if hlen : len < imsgHeaderSize ∨ maxImsgsize < len then .error
    else if imsgHeaderSize + body.length < len then .nothing
    else if malloc = false then .error
    else .message
      { type := loadLong host t₀ t₁ t₂ t₃
        flags := load host f₀ f₁
        peerid := loadLong host p₀ p₁ p₂ p₃
        pid := loadLong host q₀ q₁ q₂ q₃
        data := body.take (len - imsgHeaderSize)
        le_max := by rw [List.length_take]; omega }
      (body.drop (len - imsgHeaderSize))
  | _ => .nothing

def Imsg.encode (host : Endian) (m : Imsg) : List Byte :=
  storeLong host m.type ++ store host (BitVec.ofNat 16 (imsgHeaderSize + m.data.length)) ++
    store host m.flags ++ storeLong host m.peerid ++ storeLong host m.pid ++ m.data

/-- The loop of `dispatch_imsg` stops at an error as it does when nothing is ready. -/
def imsgNext (host : Endian) (malloc : List Byte → Bool) (buf : List Byte) : Next Imsg Byte :=
  match imsgGet host (malloc buf) buf with
  | .nothing | .error => .wait
  | .message imsg rest => .take imsg rest

variable (host : Endian) (m : Imsg)

theorem exists_encode_eq : ∃ t₀ t₁ t₂ t₃ l₀ l₁ f₀ f₁ p₀ p₁ p₂ p₃ q₀ q₁ q₂ q₃,
    m.encode host = t₀ :: t₁ :: t₂ :: t₃ :: l₀ :: l₁ :: f₀ :: f₁ :: p₀ :: p₁ :: p₂ :: p₃ ::
      q₀ :: q₁ :: q₂ :: q₃ :: m.data ∧
    loadLong host t₀ t₁ t₂ t₃ = m.type ∧
    (load host l₀ l₁).toNat = imsgHeaderSize + m.data.length ∧
    ¬ ((load host l₀ l₁).toNat < imsgHeaderSize ∨ maxImsgsize < (load host l₀ l₁).toNat) ∧
    load host f₀ f₁ = m.flags ∧ loadLong host p₀ p₁ p₂ p₃ = m.peerid ∧
    loadLong host q₀ q₁ q₂ q₃ = m.pid := by
  obtain ⟨t₀, t₁, t₂, t₃, ht, htype⟩ := exists_storeLong_eq host m.type
  obtain ⟨l₀, l₁, hl, hlen⟩ :=
    exists_store_eq host (BitVec.ofNat 16 (imsgHeaderSize + m.data.length))
  obtain ⟨f₀, f₁, hf, hflags⟩ := exists_store_eq host m.flags
  obtain ⟨p₀, p₁, p₂, p₃, hp, hpeerid⟩ := exists_storeLong_eq host m.peerid
  obtain ⟨q₀, q₁, q₂, q₃, hq, hpid⟩ := exists_storeLong_eq host m.pid
  have hle := m.le_max
  simp only [maxImsgsize, imsgHeaderSize] at hle
  have hnat : (load host l₀ l₁).toNat = imsgHeaderSize + m.data.length := by
    rw [hlen, BitVec.toNat_ofNat, Nat.mod_eq_of_lt (by rw [imsgHeaderSize]; omega)]
  refine ⟨t₀, t₁, t₂, t₃, l₀, l₁, f₀, f₁, p₀, p₁, p₂, p₃, q₀, q₁, q₂, q₃, ?_, htype, hnat, ?_,
    hflags, hpeerid, hpid⟩
  · rw [Imsg.encode, ht, hl, hf, hp, hq]
    rfl
  · rw [hnat, maxImsgsize, imsgHeaderSize]
    omega

theorem length_encode : (m.encode host).length = imsgHeaderSize + m.data.length := by
  obtain ⟨t₀, t₁, t₂, t₃, l₀, l₁, f₀, f₁, p₀, p₁, p₂, p₃, q₀, q₁, q₂, q₃, h, -⟩ :=
    exists_encode_eq host m
  rw [h, imsgHeaderSize]
  simp only [List.length_cons]
  omega

theorem imsgGet_encode (rest : List Byte) :
    imsgGet host true (m.encode host ++ rest) = .message m rest := by
  obtain ⟨t₀, t₁, t₂, t₃, l₀, l₁, f₀, f₁, p₀, p₁, p₂, p₃, q₀, q₁, q₂, q₃, h, htype, hlen, hrange,
    hflags, hpeerid, hpid⟩ := exists_encode_eq host m
  have hav : ¬ imsgHeaderSize + (m.data ++ rest).length < (load host l₀ l₁).toNat := by
    rw [hlen, List.length_append]
    omega
  rw [h]
  simp only [List.cons_append, imsgGet]
  rw [dif_neg hrange, if_neg hav, if_neg (by simp)]
  simp only [hlen, Nat.add_sub_cancel_left, List.take_left, List.drop_left, htype, hflags,
    hpeerid, hpid]

theorem imsgGet_of_lt {buf : List Byte} (malloc : Bool) (h : buf.length < imsgHeaderSize) :
    imsgGet host malloc buf = .nothing := by
  unfold imsgGet
  split
  · simp only [imsgHeaderSize, List.length_cons] at h
    omega
  · rfl

theorem imsgGet_take_encode {n : ℕ} (malloc : Bool) (hn : n < (m.encode host).length) :
    imsgGet host malloc ((m.encode host).take n) = .nothing := by
  obtain ⟨t₀, t₁, t₂, t₃, l₀, l₁, f₀, f₁, p₀, p₁, p₂, p₃, q₀, q₁, q₂, q₃, h, -, hlen, hrange, -⟩ :=
    exists_encode_eq host m
  rw [length_encode] at hn
  by_cases hshort : n < imsgHeaderSize
  · apply imsgGet_of_lt
    rw [List.length_take]
    omega
  · obtain ⟨k, rfl⟩ : ∃ k, n = k + imsgHeaderSize := ⟨n - imsgHeaderSize, by omega⟩
    have hav : imsgHeaderSize + (m.data.take k).length < (load host l₀ l₁).toNat := by
      rw [hlen, List.length_take]
      omega
    rw [h, imsgHeaderSize]
    simp only [List.take_succ_cons, imsgGet]
    rw [dif_neg hrange, if_pos hav]

theorem reads_imsgNext : Reads (imsgNext host fun _ => true) (Imsg.encode host) id
    (fun _ => true) (fun _ _ => true) where
  pos m := by rw [length_encode, imsgHeaderSize]; omega
  take m rest _ := by rw [imsgNext, imsgGet_encode]; rfl
  part m n _ _ hn := by rw [imsgNext, imsgGet_take_encode host m true hn]; rfl
  stuck _ _ _ h := nomatch h

theorem sink_foldl_feed {σ : Type*} (emit : σ → Imsg → σ) {imsgs : List Imsg}
    {chunks : List (List Byte)} (h : chunks.flatten = stream (Imsg.encode host) imsgs) (sink : σ) :
    (chunks.foldl (feed (imsgNext host fun _ => true) emit) { sink := sink }).sink =
      imsgs.foldl emit sink := by
  obtain ⟨hgood, hend⟩ := foldl_feed (reads_imsgNext host) emit h sink
  have hall : imsgs.takeWhile (fun _ => true) = imsgs :=
    List.takeWhile_eq_self_iff.mpr fun _ _ => rfl
  rw [hend (hgood.mpr fun cs _ => by rw [goodCut]; split <;> simp), hall, List.map_id]

end Tnetacle.Privileged
