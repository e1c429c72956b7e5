import WddProc.JsonText
import WddProc.Platform

/-!
# The uplink frame

`ws_format_uplink_data` writes every byte of a text as a number followed by a
comma, and overwrites the last comma. `frame` is the text it leaves and
`readFrame` the reader on the other side.
-/

namespace WddProc
namespace Uplink

variable (p : Platform)

def frameHead (cmdMerge : ℤ) : Bytes :=
  utf8 "\x7b\"cmdCode\":" ++ decimal 1 ++ utf8 ",\"cmdMerge\":" ++ decimal cmdMerge ++ utf8 ",\"data\":["

/-- The loop over the characters from `ps` on; the second component is `ps` afterwards. -/
def putChars : Bytes → ℕ → Bytes → Option (Bytes × ℕ)
  | buf, ps, [] => some (buf,ps)
  | buf, ps, b :: jdata => do
    let val := decimal (p.charInt b) ++ [44]
    let buf ← sprintfAt buf ps val
    putChars buf (ps + val.length) jdata

/-- `ws_format_uplink_data`: the return value and the buffer; no result when one of the
unchecked writes leaves the buffer. -/
def wsFormatUplinkData (buf : Option Bytes) (jdata : Option CString) (cmdMerge : ℤ) :
    Option (ℤ × Option Bytes) :=
  match buf,jdata with
  | some buf,some jdata => do
    let buf ← sprintfAt buf 0 (frameHead cmdMerge)
    let (buf,ps) ← putChars p buf (frameHead cmdMerge).length jdata.bytes
    let buf ← sprintfAt buf (ps - 1) (utf8 "]\x7d")
    some (0,some buf)
  | buf,_ => some (-1,buf)

def dataInts (jdata : CString) : List ℤ := jdata.bytes.map p.charInt

def frame (jdata : CString) (cmdMerge : ℤ) : Bytes :=
  utf8 "\x7b\"cmdCode\":1,\"cmdMerge\":" ++ decimal cmdMerge ++ utf8 ",\"data\":[" ++
    [44].intercalate ((dataInts p jdata).map decimal) ++ utf8 "]\x7d"

def cells (bs : Bytes) : Bytes := bs.flatMap fun b => decimal (p.charInt b) ++ [44]

theorem cells_eq {bs : Bytes} (hne : bs ≠ []) :
    cells p bs = [44].intercalate ((bs.map p.charInt).map decimal) ++ [44] := by
  induction bs with
  | nil => exact absurd rfl hne
  | cons b bs ih =>
    cases bs with
    | nil => simp [cells]
    | cons b' bs =>
      have hh := ih (by simp)
      simp only [cells,List.flatMap_cons,List.map_cons] at hh ⊢
      simp [hh]

theorem frame_eq (jdata : CString) (cmdMerge : ℤ) :
    frame p jdata cmdMerge =
      frameHead cmdMerge ++ [44].intercalate ((dataInts p jdata).map decimal) ++ utf8 "]\x7d" := by
  have h : utf8 "\x7b\"cmdCode\":1,\"cmdMerge\":" =
      utf8 "\x7b\"cmdCode\":" ++ decimal 1 ++ utf8 ",\"cmdMerge\":" := by decide
  rw [frame,frameHead,h]

theorem cells_cons (b : UInt8) (bs : Bytes) :
    cells p (b :: bs) = decimal (p.charInt b) ++ [44] ++ cells p bs := by
  simp [cells]

theorem putChars_append (a r bs : Bytes) :
    putChars p (a ++ 0 :: r) a.length bs =
      if (cells p bs).length ≤ r.length then
        some (a ++ cells p bs ++ 0 :: r.drop (cells p bs).length,a.length + (cells p bs).length)
      else none := by
  induction bs generalizing a r with
  | nil => simp [putChars,cells]
  | cons b bs ih =>
    rw [putChars,cells_cons]
    generalize decimal (p.charInt b) ++ [44] = val
    simp only [sprintfAt_append,Option.bind_eq_bind]
    by_cases hfit : val.length ≤ r.length
    · have hlen : a.length + val.length = (a ++ val).length := by simp
      have hiff : (cells p bs).length ≤ r.length - val.length ↔
          (val ++ cells p bs).length ≤ r.length := by
        rw [List.length_append]
        omega
      rw [if_pos hfit,Option.bind_some,hlen,ih]
      simp only [List.length_drop,List.drop_drop,hiff]
      simp only [List.length_append,List.append_assoc,Nat.add_assoc]
    · have hnot : ¬ (val ++ cells p bs).length ≤ r.length := by
        rw [List.length_append]
        omega
      rw [if_neg hfit,Option.bind_none,if_neg hnot]

theorem write_frame {head joined bs : Bytes} (hcells : cells p bs = joined ++ [44]) (buf : Bytes) :
    (do
      let buf ← sprintfAt buf 0 head
      let (buf,ps) ← putChars p buf head.length bs
      let buf ← sprintfAt buf (ps - 1) (utf8 "]\x7d")
      some ((0 : ℤ),some buf)) =
      if (head ++ joined ++ utf8 "]\x7d").length < buf.length then
        some (0,some (head ++ joined ++ utf8 "]\x7d" ++
          0 :: buf.drop ((head ++ joined ++ utf8 "]\x7d").length + 1)))
      else none := by
  have hend : (utf8 "]\x7d").length = 2 := by decide
  simp only [Option.bind_eq_bind]
  by_cases hhead : head.length < buf.length
  · rw [sprintfAt_zero hhead,Option.bind_some,putChars_append,hcells]
    by_cases hfit : (joined ++ [44]).length ≤ (buf.drop (head.length + 1)).length
    · have hps : head.length + (joined ++ [44]).length - 1 = (head ++ joined).length := by simp
      -- the comma and the NUL behind it are what the last write replaces
      have hbuf : head ++ (joined ++ [44]) ++
          0 :: (buf.drop (head.length + 1)).drop (joined ++ [44]).length =
          (head ++ joined) ++ 44 :: 0 :: buf.drop (head.length + joined.length + 2) := by
        simp only [List.drop_drop,List.length_append,List.length_singleton,List.append_assoc,
          List.cons_append,List.nil_append]
        congr 5
        omega
      rw [if_pos hfit,Option.bind_some,hps,hbuf,sprintfAt,poke_append]
      simp only [List.length_append,List.length_cons,List.length_nil,List.length_drop,hend] at hfit ⊢
      by_cases hlast : head.length + joined.length + 2 < buf.length
      · rw [if_pos (by omega),if_pos hlast]
        simp [List.drop_drop]
      · rw [if_neg (by omega),if_neg hlast,Option.bind_none]
    · rw [if_neg hfit,Option.bind_none,if_neg]
      simp only [List.length_append,List.length_singleton,List.length_drop,hend] at hfit ⊢
      omega
  · have hnone : sprintfAt buf 0 head = none := by
      rw [← Option.not_isSome_iff_eq_none,sprintfAt_zero_isSome_iff]
      exact hhead
    rw [hnone,Option.bind_none,if_neg]
    simp only [List.length_append,hend]
    omega

/-- All writes stay inside the buffer exactly when the frame and its NUL fit. -/
theorem wsFormatUplinkData_eq {jdata : CString} (hne : jdata.bytes ≠ []) (cmdMerge : ℤ) (buf : Bytes) :
    wsFormatUplinkData p (some buf) (some jdata) cmdMerge =
      if (frame p jdata cmdMerge).length < buf.length then
        some (0,some (frame p jdata cmdMerge ++ 0 :: buf.drop ((frame p jdata cmdMerge).length + 1)))
      else none := by
  rw [frame_eq]
  exact write_frame p (cells_eq p hne) buf

theorem zero_notMem_intercalate {ds : List ℤ} : 0 ∉ [44].intercalate (ds.map decimal) := by
  induction ds with
  | nil => simp
  | cons d ds ih =>
    cases ds with
    | nil => simpa using zero_notMem_decimal d
    | cons d' ds =>
      simp only [List.map_cons] at ih ⊢
      simp [ih,zero_notMem_decimal]

theorem zero_notMem_frame (jdata : CString) (cmdMerge : ℤ) : 0 ∉ frame p jdata cmdMerge := by
  have h₁ : 0 ∉ utf8 "\x7b\"cmdCode\":1,\"cmdMerge\":" := by decide
  have h₂ : 0 ∉ utf8 ",\"data\":[" := by decide
  have h₃ : 0 ∉ utf8 "]\x7d" := by decide
  simp only [frame,List.mem_append,not_or]
  exact ⟨⟨⟨⟨h₁,zero_notMem_decimal _⟩,h₂⟩,zero_notMem_intercalate⟩,h₃⟩

open JsonText in
/-- Every frame of a text that is not empty is a JSON object. -/
theorem frame_isJson {jdata : CString} (hne : jdata.bytes ≠ []) (cmdMerge : ℤ) :
    Value (frame p jdata cmdMerge) := by
  have hkeys : (∀ b ∈ utf8 "cmdCode", 32 ≤ b ∧ b ≠ 34 ∧ b ≠ 92) ∧
      (∀ b ∈ utf8 "cmdMerge", 32 ≤ b ∧ b ≠ 34 ∧ b ≠ 92) ∧
      ∀ b ∈ utf8 "data", 32 ≤ b ∧ b ≠ 34 ∧ b ≠ 92 := by
    simp only [← List.all_iff_forall_prop]
    decide
  have hdata : (dataInts p jdata).map decimal ≠ [] := by simpa [dataInts] using hne
  have hnum (m : Bytes) (hm : m ∈ (dataInts p jdata).map decimal) : Value m := by
    obtain ⟨z,-,rfl⟩ := List.mem_map.mp hm
    exact Value.number (number_decimal z)
  have hcode := (Value.number (number_decimal 1)).element.member (chars_plain hkeys.1)
  have hmerge := (Value.number (number_decimal cmdMerge)).element.member (chars_plain hkeys.2.1)
  have harray := (Value.array (elements_intercalate hdata hnum)).element.member (chars_plain hkeys.2.2)
  have hobj := Value.object (Members.cons hcode (Members.cons hmerge (Members.one harray)))
  have htext : frame p jdata cmdMerge = 123 :: ((34 :: (utf8 "cmdCode" ++ 34 :: 58 :: decimal 1) ++
      44 :: (34 :: (utf8 "cmdMerge" ++ 34 :: 58 :: decimal cmdMerge) ++
        44 :: 34 :: (utf8 "data" ++ 34 :: 58 :: 91 :: ([44].intercalate ((dataInts p jdata).map decimal) ++
          [93])))) ++ [125]) := by
    have h₁ : utf8 "\x7b\"cmdCode\":1,\"cmdMerge\":" = 123 :: 34 :: (utf8 "cmdCode" ++ 34 :: 58 ::
        (decimal 1 ++ 44 :: 34 :: (utf8 "cmdMerge" ++ [34,58]))) := by decide
    have h₂ : utf8 ",\"data\":[" = 44 :: 34 :: (utf8 "data" ++ [34,58,91]) := by decide
    have h₃ : utf8 "]\x7d" = [93,125] := by decide
    rw [frame,h₁,h₂,h₃]
    simp
  rw [htext]
  exact hobj

/-- Numbers separated by commas up to the end of a frame. -/
def readInts : ℕ → Bytes → Option (List ℤ)
  | 0, _ => none
  | n + 1, m =>
    (readInt m).bind fun (d,m) =>
      if m = utf8 "]\x7d" then some [d]
      else if m.head? = some 44 then (readInts n m.tail).map (d :: ·)
      else none

/-- The command and the bytes of a frame. -/
def readFrame (m : Bytes) : Option (ℤ × Bytes) := do
  let m ← m.dropPrefix? (utf8 "\x7b\"cmdCode\":1,\"cmdMerge\":")
  let (cmdMerge,m) ← readInt m
  let m ← m.dropPrefix? (utf8 ",\"data\":[")
  let data ← readInts m.length m
  some (cmdMerge,data.map fun d => UInt8.ofNat (d % 256).toNat)

theorem readInts_intercalate {ds : List ℤ} (hne : ds ≠ []) {n : ℕ} (hn : ds.length ≤ n) :
    readInts n ([44].intercalate (ds.map decimal) ++ utf8 "]\x7d") = some ds := by
  induction ds generalizing n with
  | nil => exact absurd rfl hne
  | cons d ds ih =>
    obtain ⟨n,rfl⟩ : ∃ k, n = k + 1 := ⟨n - 1,by simp at hn; omega⟩
    cases ds with
    | nil =>
      have hend : NoDigitAhead (utf8 "]\x7d") := noDigitAhead_cons (by decide) [125]
      simp [readInts,readInt_decimal d hend]
    | cons d' ds =>
      have hh := ih (by simp) (n := n) (by simpa using hn)
      have htext : [44].intercalate ((d :: d' :: ds).map decimal) ++ utf8 "]\x7d" =
          decimal d ++ 44 :: ([44].intercalate ((d' :: ds).map decimal) ++ utf8 "]\x7d") := by simp
      have hend (m : Bytes) : NoDigitAhead (44 :: m) := noDigitAhead_cons (by decide) m
      have hcomma (m : Bytes) : 44 :: m ≠ utf8 "]\x7d" := by
        have hhead : (utf8 "]\x7d").head? = some 93 := by decide
        intro h
        rw [← h] at hhead
        exact absurd hhead (by simp)
      rw [htext,readInts,readInt_decimal d (hend _),Option.bind_some]
      simp only [if_neg (hcomma _),List.head?_cons,if_true,List.tail_cons,hh,Option.map_some]

theorem length_le_intercalate (ds : List ℤ) : ds.length ≤ ([44].intercalate (ds.map decimal)).length + 1 := by
  induction ds with
  | nil => simp
  | cons d ds ih =>
    cases ds with
    | nil => simp
    | cons d' ds =>
      simp only [List.map_cons,List.length_cons,List.intercalate_cons_cons,List.length_append] at ih ⊢
      omega

/-- The reader returns the command and the text of every frame. -/
theorem readFrame_frame {jdata : CString} (hne : jdata.bytes ≠ []) (cmdMerge : ℤ) :
    readFrame (frame p jdata cmdMerge) = some (cmdMerge,jdata.bytes) := by
  have hend (m : Bytes) : NoDigitAhead (utf8 ",\"data\":[" ++ m) := by
    have hh : utf8 ",\"data\":[" = 44 :: utf8 "\"data\":[" := by decide
    rw [hh]
    exact noDigitAhead_cons (by decide) _
  have hlen : (dataInts p jdata).length ≤
      ([44].intercalate ((dataInts p jdata).map decimal) ++ utf8 "]\x7d").length := by
    have hh := length_le_intercalate (dataInts p jdata)
    have h₂ : (utf8 "]\x7d").length = 2 := by decide
    rw [List.length_append,h₂]
    omega
  have hdata := readInts_intercalate (by simpa [dataInts] using hne) hlen
  have hbytes : (dataInts p jdata).map (fun d => UInt8.ofNat (d % 256).toNat) = jdata.bytes := by
    simp [dataInts,Function.comp_def,p.charInt_mod]
  simp only [readFrame,frame,List.append_assoc,Option.bind_eq_bind]
  rw [List.dropPrefix?_append_of_beq _ (by simp),Option.bind_some,readInt_decimal _ (hend _),
    Option.bind_some]
  simp only []
  rw [List.dropPrefix?_append_of_beq _ (by simp),Option.bind_some,hdata,Option.bind_some,hbytes]

theorem frame_injective {jdata jdata' : CString} (hne : jdata.bytes ≠ []) (hne' : jdata'.bytes ≠ [])
    {cmdMerge cmdMerge' : ℤ} (h : frame p jdata cmdMerge = frame p jdata' cmdMerge') :
    jdata = jdata' ∧ cmdMerge = cmdMerge' := by
  have hread := readFrame_frame p hne cmdMerge
  rw [h,readFrame_frame p hne',Option.some.injEq,Prod.mk.injEq] at hread
  exact ⟨CString.ext hread.2.symm,hread.1.symm⟩

/-- A large enough buffer receives the frame, which is JSON and from which command and
text are read back, so no two of them share a frame. -/
theorem uplink_lossless {jdata : CString} (hne : jdata.bytes ≠ []) (cmdMerge : ℤ) {buf : Bytes}
    (hbuf : (frame p jdata cmdMerge).length < buf.length) :
    ∃ out, wsFormatUplinkData p (some buf) (some jdata) cmdMerge = some (0,some out) ∧
      cstr out = utf8 "\x7b\"cmdCode\":1,\"cmdMerge\":" ++ decimal cmdMerge ++ utf8 ",\"data\":[" ++
        [44].intercalate ((jdata.bytes.map p.charInt).map decimal) ++ utf8 "]\x7d" ∧
      JsonText.Value (cstr out) ∧ readFrame (cstr out) = some (cmdMerge,jdata.bytes) ∧
      ∀ jdata' cmdMerge', jdata'.bytes ≠ [] → frame p jdata' cmdMerge' = cstr out →
        jdata' = jdata ∧ cmdMerge' = cmdMerge := by
  have hcstr := cstr_append_nul (zero_notMem_frame p jdata cmdMerge)
    (buf.drop ((frame p jdata cmdMerge).length + 1))
  refine ⟨_,by rw [wsFormatUplinkData_eq p hne,if_pos hbuf],hcstr,?_,?_,?_⟩
  · rw [hcstr]
    exact frame_isJson p hne cmdMerge
  · rw [hcstr]
    exact readFrame_frame p hne cmdMerge
  · intro jdata' cmdMerge' hne' h
    exact frame_injective p hne' hne (h.trans hcstr)

theorem uplink_lossless_ab : ∃ out,
    wsFormatUplinkData .sample (some (List.replicate 64 0)) (some (CString.lit "ab")) 65537 =
        some (0,some out) ∧
      readFrame (cstr out) = some (65537,utf8 "ab") := by
  obtain ⟨out,hout,-,-,hread,-⟩ := @uplink_lossless .sample (CString.lit "ab") (by decide) 65537
    (List.replicate 64 0) (by decide)
  exact ⟨out,hout,hread⟩

end Uplink
end WddProc
