import WddProc.Stores
import WddProc.TableLayout

/-!
# The block of a table

What `s_table_create` checks about the block that its caller supplies, and the bytes of it
that a new table takes. The check counts `y+2` lines of cells; the text has `2*y+3` lines.
-/

namespace WddProc
namespace StringTable

def nameLen (tableName : CString) : ℤ := toInt32 tableName.length

/-- Where the checks lead, before the name is copied. -/
inductive Verdict
  | undefined | rejected | accepted (relLineNum : ℕ)
  deriving DecidableEq

def spaceOf (num : ℤ) : ℕ := (num % 2^64).toNat

/-- The checks of `s_table_create`. -/
def sTableCheck (tableName : CString) (x y gridWide : ℕ) (num : ℤ) : Verdict :=
  match int ((x * (gridWide + 1) + 1) * (y + 2)),int ((gridWide + 1) * x + 1 + 2) with
  | some space,some relLineNum =>
    if spaceOf num < matedateSize + 8 * x * y + space then .rejected
    else if (MAX_TABLE_NAME : ℤ) < nameLen tableName - 1 ∨
        (relLineNum : ℤ) - 5 < nameLen tableName - 1 then .rejected
    else if nameLen tableName < 0 then .undefined
    else .accepted relLineNum
  | _,_ => .undefined

def copiedName (tableName : CString) : Bytes := tableName.bytes.take (nameLen tableName).toNat

theorem zero_notMem_copiedName (tableName : CString) : 0 ∉ copiedName tableName := fun h =>
  tableName.nulFree (List.mem_of_mem_take h)

def initialised (tableName : CString) (x y gridWide num relLineNum : ℕ) : Option STable :=
  ((emptyTable x y gridWide num relLineNum).copyName (copiedName tableName)).bind sTableTableinit

theorem sTableCreate_check (tableName : CString) (x y w : ℕ) {num : ℕ} (hnum : num < 2^64) :
    sTableCreate tableName x y w num =
      match sTableCheck tableName x y w num with
      | .undefined => .fault
      | .rejected => .null
      | .accepted relLineNum => (initialised tableName x y w num relLineNum).elim .fault .done := by
  have hspace : spaceOf num = num := by
    unfold spaceOf
    omega
  have hname : toInt32 (tableName.length : ℤ) = nameLen tableName := rfl
  have hcopied : tableName.bytes.take (nameLen tableName).toNat = copiedName tableName := rfl
  rw [sTableCreate,sTableCheck]
  simp only [hspace,hname,hcopied]
  cases int ((x * (w + 1) + 1) * (y + 2)) with
  | none => rfl
  | some space =>
    cases int ((w + 1) * x + 1 + 2) with
    | none => rfl
    | some relLineNum =>
      simp only
      split
      · rfl
      split
      · rfl
      split
      · rfl
      · simp only
        rw [initialised,Option.bind_eq_bind]
        generalize ((emptyTable x y w num relLineNum).copyName (copiedName tableName)).bind
          sTableTableinit = created
        cases created <;> rfl

def lineWrites (R : ℕ) (lineBreak : UInt8 × UInt8) (k : ℕ) : List (ℕ × Bytes) :=
  [(k * R,List.replicate R (if k % 2 = 0 then 61 else 32)),(k * R + (R - 2),[lineBreak.1]),
    (k * R + (R - 1),[lineBreak.2])]

def columnWrites (w R k : ℕ) : List (ℕ × Bytes) :=
  (List.range (R - 2)).flatMap fun c =>
    if c % (w + 1) = 0 then [(k * R + c,[if k % 2 = 0 then 61 else 124])] else []

def titleWrites (R : ℕ) (name : Bytes) : List (ℕ × Bytes) :=
  [(R + 1 + 1,List.replicate (R - 5) 32),(R + 1 + (R - 2) / 2 - name.length / 2,name)]

/-- The phases that write the text, with offsets into it. -/
def textWrites (y w R : ℕ) (lineBreak : UInt8 × UInt8) (name : Bytes) : List (ℕ × Bytes) :=
  (List.range (2 * y + 3)).flatMap (lineWrites R lineBreak) ++ ([((2 * y + 3) * R,[0])] ++
    ((List.range (2 * y + 3)).flatMap (columnWrites w R) ++ titleWrites R name))

theorem initLine_stores {md : STable} {lineBreak : UInt8 × UInt8}
    (h : gLineBreak md.typeValue = some lineBreak) (m : Bytes) (k : ℕ) :
    initLine md m k = stores m (lineWrites md.relLineNum lineBreak k) := by
  simp only [initLine,lineWrites,stores_cons,stores_nil,h,gTbDefaultValue,Option.bind_eq_bind,
    Option.bind_some,Option.bind_fun_some]

theorem initColumn_stores (md : STable) (m : Bytes) (k : ℕ) :
    initColumn md m k = stores m (columnWrites md.colwidth md.relLineNum k) := by
  rw [initColumn,columnWrites,stores_flatMap]
  congr 1
  funext m c
  split
  · rw [stores_cons,apply_ite gTbDefaultValue]
    exact (Option.bind_fun_some _).symm
  · rfl

theorem initText_stores {md : STable} {lineBreak : UInt8 × UInt8}
    (h : gLineBreak md.typeValue = some lineBreak) (h5 : 5 ≤ md.relLineNum) (m : Bytes) :
    (((initLines md m).bind (initColumns md)).bind (initTitle md)) =
      stores m (textWrites md.tableY md.colwidth md.relLineNum lineBreak md.nameText) := by
  have hline : initLine md = fun m k => stores m (lineWrites md.relLineNum lineBreak k) :=
    funext fun m => funext fun k => initLine_stores h m k
  have hcolumn : initColumn md = fun m k => stores m (columnWrites md.colwidth md.relLineNum k) :=
    funext fun m => funext fun k => initColumn_stores md m k
  have htitle : initTitle md = fun m => stores m (titleWrites md.relLineNum md.nameText) := by
    funext m
    rw [initTitle,if_neg (Nat.not_lt.mpr h5)]
    simp only [titleWrites,stores_cons,stores_nil,Option.bind_eq_bind,Option.bind_fun_some]
  have hcolumns : initColumns md = fun m => stores m
      ((List.range (2 * md.tableY + 3)).flatMap (columnWrites md.colwidth md.relLineNum)) := by
    funext m
    rw [initColumns,hcolumn,stores_flatMap]
  have hlines : initLines md m = stores m ((List.range (2 * md.tableY + 3)).flatMap
      (lineWrites md.relLineNum lineBreak) ++ [((2 * md.tableY + 3) * md.relLineNum,[0])]) := by
    rw [initLines,hline,stores_append,stores_flatMap]
    simp only [stores_cons,stores_nil,Option.bind_eq_bind,Option.bind_fun_some,gTbDefaultValue]
  rw [hlines,hcolumns,htitle,textWrites,← List.append_assoc,stores_append,Option.bind_assoc]
  simp only [stores_append]

theorem textWrites_inside_iff {y w R : ℕ} (h5 : 5 ≤ R) (lineBreak : UInt8 × UInt8) {name : Bytes}
    (hname : name.length + 4 ≤ R) (L : ℕ) :
    (∀ p ∈ textWrites y w R lineBreak name, p.1 + p.2.length ≤ L) ↔ (2 * y + 3) * R + 1 ≤ L := by
  have hline {k : ℕ} (hk : k < 2 * y + 3) : k * R + R ≤ (2 * y + 3) * R := by
    rw [← Nat.succ_mul]
    exact Nat.mul_le_mul_right R hk
  have htwo := hline (show 1 < 2 * y + 3 by omega)
  constructor
  · intro h
    exact h ((2 * y + 3) * R,[0]) (by simp [textWrites])
  · intro hL p hp
    simp only [textWrites,List.mem_append,List.mem_flatMap,List.mem_range,List.mem_singleton] at hp
    rcases hp with ⟨k,hk,hp⟩ | rfl | ⟨k,hk,hp⟩ | hp
    · have hk := hline hk
      simp only [lineWrites,List.mem_cons,List.not_mem_nil,or_false] at hp
      rcases hp with rfl | rfl | rfl
      · rw [List.length_replicate]
        omega
      · rw [List.length_singleton]
        omega
      · rw [List.length_singleton]
        omega
    · exact hL
    · have hk := hline hk
      simp only [columnWrites,List.mem_flatMap,List.mem_range] at hp
      obtain ⟨c,hc,hp⟩ := hp
      split at hp
      · rw [List.mem_singleton.mp hp,List.length_singleton]
        omega
      · cases hp
    · simp only [titleWrites,List.mem_cons,List.not_mem_nil,or_false] at hp
      rcases hp with rfl | rfl
      · rw [List.length_replicate]
        omega
      · change R + 1 + (R - 2) / 2 - name.length / 2 + name.length ≤ L
        omega

def fieldWrites : List (ℕ × ℕ) := (List.range 6).map fun k => (MAX_TABLE_NAME + 4 * k,4)

def pointerWrites (x y : ℕ) : List (ℕ × ℕ) :=
  (List.range y).flatMap fun j => (List.range x).map fun i => (matedateSize + 8 * (i * y + j),8)

/-- Offsets in the block and lengths of all that is written when the checks are passed. -/
def blockWrites (name : Bytes) (x y w R : ℕ) (num : ℤ) (lineBreak : UInt8 × UInt8) :
    List (ℕ × ℕ) :=
  (0,spaceOf num) :: fieldWrites ++ (0,name.length) ::
    (textWrites y w R lineBreak name).map (fun p => (matedateSize + 8 * x * y + p.1,p.2.length)) ++
    pointerWrites x y ++ [(MAX_TABLE_NAME + 4 * 6,8)]

/-- `s_table_create` is defined and, unless it returns `NULL`, writes only into its block. -/
def WritesInside (tableName : CString) (x y w : ℕ) (num : ℤ) (lineBreak : UInt8 × UInt8) : Prop :=
  match sTableCheck tableName x y w num with
  | .undefined => False
  | .rejected => True
  | .accepted relLineNum =>
    ∀ p ∈ blockWrites (copiedName tableName) x y w relLineNum num lineBreak,
      ((p.1 + p.2 : ℕ) : ℤ) ≤ num

/-- The conditions under which `s_table_create` returns `NULL`. -/
def Rejects (tableName : CString) (x y w : ℕ) (num : ℤ) : Prop :=
  spaceOf num < matedateSize + 8 * x * y + (x * (w + 1) + 1) * (y + 2) ∨
    (MAX_TABLE_NAME : ℤ) < nameLen tableName - 1 ∨ (wide x w : ℤ) - 5 < nameLen tableName - 1

instance (tableName : CString) (x y w : ℕ) (num : ℤ) : Decidable (Rejects tableName x y w num) :=
  inferInstanceAs (Decidable (_ ∨ _ ∨ _))

theorem sTableCheck_cases (tableName : CString) (x y w : ℕ) (num : ℤ) :
    (2^31 ≤ (x * (w + 1) + 1) * (y + 2) ∧ sTableCheck tableName x y w num = .undefined) ∨
      (x * (w + 1) + 1) * (y + 2) < 2^31 ∧
        ((Rejects tableName x y w num ∧ sTableCheck tableName x y w num = .rejected) ∨
        ¬ Rejects tableName x y w num ∧
          ((nameLen tableName < 0 ∧ sTableCheck tableName x y w num = .undefined) ∨
          0 ≤ nameLen tableName ∧
            sTableCheck tableName x y w num = .accepted (wide x w))) := by
  by_cases hint : (x * (w + 1) + 1) * (y + 2) < 2^31
  · have hspace : int ((x * (w + 1) + 1) * (y + 2)) = some ((x * (w + 1) + 1) * (y + 2)) :=
      int_eq hint
    have hle : 2 * (x * (w + 1) + 1) ≤ (x * (w + 1) + 1) * (y + 2) := by
      rw [Nat.mul_comm 2]
      exact Nat.mul_le_mul_left _ (by omega)
    have hcomm : (w + 1) * x = x * (w + 1) := Nat.mul_comm _ _
    have hwide : int ((w + 1) * x + 1 + 2) = some (wide x w) :=
      @int_eq (wide x w) (by unfold wide; omega)
    refine Or.inr ⟨hint,?_⟩
    rw [sTableCheck,hspace,hwide]
    by_cases hsmall : spaceOf num < matedateSize + 8 * x * y + (x * (w + 1) + 1) * (y + 2)
    · exact Or.inl ⟨Or.inl hsmall,if_pos hsmall⟩
    by_cases hlong : (MAX_TABLE_NAME : ℤ) < nameLen tableName - 1 ∨
        (wide x w : ℤ) - 5 < nameLen tableName - 1
    · refine Or.inl ⟨Or.inr hlong,?_⟩
      simp only
      rw [if_neg hsmall,if_pos hlong]
    refine Or.inr ⟨not_or.mpr ⟨hsmall,hlong⟩,?_⟩
    simp only
    rw [if_neg hsmall,if_neg hlong]
    by_cases hneg : nameLen tableName < 0
    · exact Or.inl ⟨hneg,if_pos hneg⟩
    · exact Or.inr ⟨Int.not_lt.mp hneg,if_neg hneg⟩
  · refine Or.inl ⟨Nat.not_lt.mp hint,?_⟩
    rw [sTableCheck,int,if_neg hint]

/-- Everything that is written lies in the block exactly when the block holds the table. -/
theorem blockWrites_inside_iff {name : Bytes} {x y w : ℕ} (hx : 1 ≤ x) (hw : 1 ≤ w)
    (hname : name.length + 4 ≤ wide x w) (h65 : name.length ≤ 65) {num : ℤ} (hnum : num < 2^31)
    (lineBreak : UInt8 × UInt8) :
    (∀ p ∈ blockWrites name x y w (wide x w) num lineBreak, ((p.1 + p.2 : ℕ) : ℤ) ≤ num) ↔
      (needed x y w : ℤ) ≤ num := by
  have h5 : 5 ≤ wide x w := by
    have hle : 2 * 1 ≤ (w + 1) * x := Nat.mul_le_mul (by omega) hx
    unfold wide
    omega
  have htext := textWrites_inside_iff (y := y) (w := w) h5 lineBreak hname
  constructor
  · intro h
    have hend := h (matedateSize + 8 * x * y + (2 * y + 3) * wide x w,1) (by
      simp [blockWrites,textWrites])
    rw [needed]
    push_cast at hend ⊢
    linarith
  · intro h p hp
    obtain ⟨size,rfl⟩ : ∃ size : ℕ, num = size := ⟨num.toNat,by omega⟩
    rw [Nat.cast_le] at h ⊢
    rw [needed] at h
    have hspace : spaceOf (size : ℤ) = size := by
      unfold spaceOf
      omega
    simp only [blockWrites,hspace,List.mem_append,List.mem_cons,List.mem_map,List.not_mem_nil,
      or_false] at hp
    rcases hp with (((rfl | hp) | rfl | ⟨q,hq,rfl⟩) | hp) | rfl
    · exact (Nat.zero_add size).le
    · obtain ⟨k,hk,rfl⟩ := List.mem_map.mp hp
      have hk := List.mem_range.mp hk
      change MAX_TABLE_NAME + 4 * k + 4 ≤ size
      unfold MAX_TABLE_NAME
      unfold matedateSize at h
      omega
    · change 0 + name.length ≤ size
      unfold matedateSize at h
      omega
    · have hend := (htext _).mpr le_rfl q hq
      change matedateSize + 8 * x * y + q.1 + q.2.length ≤ size
      omega
    · simp only [pointerWrites,List.mem_flatMap,List.mem_map,List.mem_range] at hp
      obtain ⟨j,hj,i,hi,rfl⟩ := hp
      have hlt : i * y + j < x * y := TextGrid.place_lt hi hj
      have hcells : 8 * x * y = 8 * (x * y) := Nat.mul_assoc 8 x y
      change matedateSize + 8 * (i * y + j) + 8 ≤ size
      omega
    · change MAX_TABLE_NAME + 4 * 6 + 8 ≤ size
      unfold MAX_TABLE_NAME
      unfold matedateSize at h
      omega

theorem copiedName_length {tableName : CString} {x y w : ℕ} {num : ℤ}
    (h : ¬ Rejects tableName x y w num) (hname : 0 ≤ nameLen tableName) :
    ((copiedName tableName).length : ℤ) = nameLen tableName ∧
      (copiedName tableName).length + 4 ≤ wide x w ∧ (copiedName tableName).length ≤ 65 := by
  have hle : nameLen tableName ≤ tableName.bytes.length := by
    rw [nameLen,toInt32,Int.bmod_def,CString.length]
    omega
  have hlen : ((copiedName tableName).length : ℤ) = nameLen tableName := by
    rw [copiedName,List.length_take,Nat.min_eq_left (by omega)]
    exact Int.toNat_of_nonneg hname
  simp only [Rejects,not_or,not_lt,MAX_TABLE_NAME] at h
  exact ⟨hlen,by omega,by omega⟩

/-- The check of the space is not enough: a table also needs its other lines. -/
theorem writesInside_iff {x w : ℕ} (hx : 1 ≤ x) (hw : 1 ≤ w) (y : ℕ) (tableName : CString) {num : ℤ}
    (hnum : num < 2^31) (lineBreak : UInt8 × UInt8) :
    WritesInside tableName x y w num lineBreak ↔
      (x * (w + 1) + 1) * (y + 2) < 2^31 ∧ (Rejects tableName x y w num ∨
        0 ≤ nameLen tableName ∧ (needed x y w : ℤ) ≤ num) := by
  unfold WritesInside
  rcases sTableCheck_cases tableName x y w num with
    ⟨hover,hcheck⟩ | ⟨hint,⟨hrejects,hcheck⟩ | ⟨haccepts,⟨hneg,hcheck⟩ | ⟨hname,hcheck⟩⟩⟩
  · rw [hcheck]
    exact iff_of_false id fun h => by omega
  · rw [hcheck]
    exact iff_of_true trivial ⟨hint,Or.inl hrejects⟩
  · rw [hcheck]
    refine iff_of_false id ?_
    rintro ⟨-,h | ⟨h,-⟩⟩
    · exact haccepts h
    · omega
  · obtain ⟨-,hfits,h65⟩ := copiedName_length haccepts hname
    rw [hcheck]
    simp only
    rw [blockWrites_inside_iff hx hw hfits h65 hnum]
    simp only [hint,haccepts,hname,true_and,false_or]

theorem writesInside_small : WritesInside (CString.lit "t") 1 1 1 130 (32,10) :=
  (writesInside_iff (by decide) (by decide) 1 _ (by decide) _).mpr (by decide)

/-- A block that passes the check and ends before the last line of its table. -/
theorem space_check_not_sufficient : ¬ ∀ (tableName : CString) (x y w : ℕ) (num : ℤ), 1 ≤ x →
    1 ≤ y → 1 ≤ w → num < 2^31 → WritesInside tableName x y w num (32,10) := by
  intro h
  have hwrites := h (CString.lit "t") 1 1 1 113 le_rfl le_rfl le_rfl (by decide)
  have hcheck : sTableCheck (CString.lit "t") 1 1 1 113 = .accepted 5 := by decide
  rw [WritesInside,hcheck] at hwrites
  have hend := hwrites (129,1) (by decide)
  exact absurd hend (by decide)

theorem sTableTableinit_eq {md : STable} {x y w : ℕ} {lineBreak : UInt8 × UInt8}
    (hx : md.tableX = x) (hy : md.tableY = y) (hcw : md.colwidth = w) (hL : md.relLineNum = wide x w)
    (htable : md.table.length = x * y) (hbreak : gLineBreak md.typeValue = some lineBreak)
    (h5 : 5 ≤ wide x w) :
    ∃ table, sTableTableinit md =
      (stores md.text (textWrites y w (wide x w) lineBreak md.nameText)).map fun m =>
        { md with text := m, table := table, data := some 0 } := by
  obtain ⟨table,hpointers,-⟩ := initPointers_eq hx hy hcw hL htable
  have htext := initText_stores hbreak (by rw [hL]; exact h5) md.text
  rw [hy,hcw,hL] at htext
  refine ⟨table,?_⟩
  rw [← htext,sTableTableinit]
  simp only [Option.bind_eq_bind,hpointers,Option.bind_some,Option.bind_assoc,
    Option.map_eq_bind,Function.comp_def]

/-- The list of writes and the stores into the text agree: for a name that leaves `table_type`,
`s_table_create` has a result exactly when all writes are inside. -/
theorem sTableCreate_ne_fault_iff {tableName : CString} {x y w num : ℕ} (hx : 1 ≤ x) (hw : 1 ≤ w)
    (hnum : num < 2^31) (h64 : nameLen tableName ≤ 64) (lineBreak : UInt8 × UInt8) :
    sTableCreate tableName x y w num ≠ .fault ↔ WritesInside tableName x y w num lineBreak := by
  rw [sTableCreate_check tableName x y w (by omega),WritesInside]
  rcases sTableCheck_cases tableName x y w num with
    ⟨-,hcheck⟩ | ⟨-,⟨-,hcheck⟩ | ⟨haccepts,⟨-,hcheck⟩ | ⟨hname,hcheck⟩⟩⟩
  · rw [hcheck]
    exact iff_of_false (fun h => h rfl) id
  · rw [hcheck]
    exact iff_of_true (fun h => nomatch h) trivial
  · rw [hcheck]
    exact iff_of_false (fun h => h rfl) id
  · obtain ⟨hlen,hfits,h65⟩ := copiedName_length haccepts hname
    have h5 : 5 ≤ wide x w := by
      have hle : 2 * 1 ≤ (w + 1) * x := Nat.mul_le_mul (by omega) hx
      unfold wide
      omega
    obtain ⟨name,hcopy,hcopied⟩ := copyName_eq (zero_notMem_copiedName tableName) (by omega) x y w num
      (wide x w)
    obtain ⟨table,hinit⟩ := @sTableTableinit_eq { emptyTable x y w num (wide x w) with name := name }
      x y w (32,10) rfl rfl rfl rfl List.length_replicate rfl h5
    have hnamed : STable.nameText { emptyTable x y w num (wide x w) with name := name } =
        copiedName tableName := hcopied
    have hroom := stores_isSome_iff (List.replicate (num - matedateSize - 8 * x * y) 0)
      (textWrites y w (wide x w) (32,10) (copiedName tableName))
    rw [textWrites_inside_iff h5 (32,10) hfits,List.length_replicate] at hroom
    rw [hcheck]
    simp only
    rw [blockWrites_inside_iff hx hw hfits h65 (by omega),initialised,hcopy,Option.bind_some,hinit,hnamed]
    have hresult (o : Option Bytes) (f : Bytes → STable) :
        (o.map f).elim .fault .done ≠ Outcome.fault ↔ o.isSome := by
      cases o <;> simp
    refine (hresult _ _).trans (hroom.trans ?_)
    unfold needed
    omega

theorem sTableCreate_accepted {tableName : CString} {x y w num : ℕ} (hspace : needed x y w ≤ num)
    (hnum : num < 2^31) (haccepted : ¬ Rejects tableName x y w num) :
    sTableCreate tableName x y w num =
      if nameLen tableName < 0 then .fault
      else (initialised tableName x y w num (wide x w)).elim .fault .done := by
  have hless := space_lt_needed x y w
  rw [sTableCreate_check tableName x y w (by omega)]
  rcases sTableCheck_cases tableName x y w num with
    ⟨hover,-⟩ | ⟨-,⟨hrejects,-⟩ | ⟨-,⟨hneg,hcheck⟩ | ⟨hname,hcheck⟩⟩⟩
  · omega
  · exact absurd hrejects haccepted
  · rw [hcheck,if_pos hneg]
  · rw [hcheck,if_neg (Int.not_lt.mpr hname)]

/-- A name of more than 64 bytes runs into `table_type`. -/
theorem copyName_tableType {t md : STable} {name : Bytes} (h : t.copyName name = some md)
    (hfree : 0 ∉ name) (htype : md.tableType = CharArray.zero 4) : name.length ≤ 64 := by
  by_contra hlong
  rw [STable.copyName,Option.bind_eq_bind] at h
  obtain ⟨m,hpoke,hm⟩ := Option.bind_eq_some_iff.mp h
  split at hm
  · cases hm
    have hzero : m.drop MAX_TABLE_NAME = List.replicate 4 0 := congrArg Subtype.val htype
    have hget : m[64]? = some 0 := by
      have hfirst : (m.drop MAX_TABLE_NAME)[0]? = some 0 := by rw [hzero]; rfl
      rwa [List.getElem?_drop] at hfirst
    rw [TextGrid.getElem?_poke hpoke,if_pos ⟨Nat.zero_le 64,by omega⟩] at hget
    exact hfree (List.mem_of_getElem? hget)
  · cases hm

/-- The title is in its table: the numbers of the table are those that were assigned, the line
break is one of the two, the third phase writes between the borders of line 1, and the borders
and the newline of that line are there. -/
structure TitleKept (x y w num : ℕ) (t : STable) : Prop where
  tableType : t.tableType = CharArray.zero 4
  tableX : t.tableX = x
  tableY : t.tableY = y
  memNum : t.memNum = num
  colwidth : t.colwidth = w
  relLineNum : t.relLineNum = wide x w
  lineBreak : (gLineBreak t.typeValue).isSome
  interior : ∀ p ∈ titleWrites t.relLineNum t.nameText,
    t.relLineNum + 1 ≤ p.1 ∧ p.1 + p.2.length ≤ t.relLineNum + (t.relLineNum - 3)
  leftBorder : t.text[t.relLineNum]? = some (gTbDefaultValue .lineSeparator)
  rightBorder : t.text[t.relLineNum + (t.relLineNum - 3)]? = some (gTbDefaultValue .lineSeparator)
  newline : t.text[t.relLineNum + (t.relLineNum - 1)]? = some 10

/-- A title of this length is in its array and between the borders. -/
def TitleFits (n : ℤ) (R : ℕ) : Prop := 0 ≤ n ∧ n ≤ 64 ∧ (n + 6 ≤ R ∨ n + 5 = R ∧ R % 2 = 1)

theorem titleFits_iff {x w n : ℕ} (hn : n + 4 ≤ wide x w) :
    n ≤ 64 ∧ titleColumn x w n + n ≤ (w + 1) * x ↔ TitleFits n (wide x w) := by
  unfold TitleFits titleColumn
  have hwide : wide x w = (w + 1) * x + 3 := rfl
  omega

theorem sTableTableinit_fields {md t : STable} (h : sTableTableinit md = some t) :
    t = { md with text := t.text, table := t.table, data := t.data } := by
  rw [sTableTableinit] at h
  simp only [Option.bind_eq_bind,Option.bind_eq_some_iff] at h
  obtain ⟨m₁,-,m₂,-,m₃,-,table,-,ht⟩ := h
  cases ht
  rfl

theorem TitleKept.fits {tableName : CString} {x y w num : ℕ} {t : STable}
    (hspace : needed x y w ≤ num) (hnum : num < 2^31) (haccepted : ¬ Rejects tableName x y w num)
    (hcreate : sTableCreate tableName x y w num = .done t) (h : TitleKept x y w num t) :
    TitleFits (nameLen tableName) (wide x w) := by
  rw [sTableCreate_accepted hspace hnum haccepted] at hcreate
  split at hcreate
  · cases hcreate
  rename_i hneg
  obtain ⟨hlen,hfits,-⟩ := copiedName_length haccepted (Int.not_lt.mp hneg)
  cases hinit : initialised tableName x y w num (wide x w) with
  | none =>
    rw [hinit] at hcreate
    cases hcreate
  | some t' =>
    rw [hinit] at hcreate
    cases hcreate
    obtain ⟨md,hcopy,hmd⟩ := Option.bind_eq_some_iff.mp hinit
    have hfields := sTableTableinit_fields hmd
    have htype : md.tableType = CharArray.zero 4 := by
      rw [← h.tableType,hfields]
    have h64 := copyName_tableType hcopy (zero_notMem_copiedName tableName) htype
    obtain ⟨name,hcopied,hname⟩ := copyName_eq (zero_notMem_copiedName tableName) h64 x y w num
      (wide x w)
    obtain rfl := Option.some.inj (hcopy.symm.trans hcopied)
    have htext : t.nameText = copiedName tableName := by
      rw [hfields]
      exact hname
    have hinterior := (h.interior _ (List.mem_cons_of_mem _ List.mem_cons_self)).2
    rw [h.relLineNum,htext] at hinterior
    rw [← hlen,← titleFits_iff hfits]
    refine ⟨h64,?_⟩
    have hwide : wide x w = (w + 1) * x + 3 := rfl
    simp only at hinterior
    unfold titleColumn
    omega

theorem Laid.lineOne {x y w : ℕ} {title : Bytes} {cells : ℕ → ℕ → Bytes} {t : STable}
    (h : Laid x y w title cells t) {c : ℕ} (hc : c < wide x w) :
    t.text[wide x w + c]? = some (picture x w title cells 1 c) := by
  obtain ⟨rest,htext⟩ := h.text
  have hlt : 1 * wide x w + c < (2 * y + 3) * wide x w := TextGrid.place_lt (by omega) hc
  rw [Nat.one_mul] at hlt
  have hline := TextGrid.getElem?_lines (picture x w title cells) (show 1 < 2 * y + 3 by omega) hc
  rw [Nat.one_mul] at hline
  rw [htext,List.getElem?_append_left (by rw [TextGrid.lines_length]; exact hlt),hline]

theorem titleKept_of_fits {tableName : CString} {x y w num : ℕ} (hw : 1 ≤ w)
    (hspace : needed x y w ≤ num) (hnum : num < 2^31) (haccepted : ¬ Rejects tableName x y w num)
    (hfits : TitleFits (nameLen tableName) (wide x w)) :
    ∃ t, sTableCreate tableName x y w num = .done t ∧ TitleKept x y w num t := by
  obtain ⟨hlen,hle,-⟩ := copiedName_length haccepted hfits.1
  rw [← hlen,← titleFits_iff hle] at hfits
  obtain ⟨h64,hstop⟩ := hfits
  have hwide : wide x w = (w + 1) * x + 3 := rfl
  have hstart : 2 ≤ titleColumn x w (copiedName tableName).length := by
    unfold titleColumn
    omega
  obtain ⟨name,hcopy,hname⟩ := copyName_eq (zero_notMem_copiedName tableName) h64 x y w num (wide x w)
  obtain ⟨n,hzeros⟩ := text_eq hspace
  have hnamed : STable.nameText { emptyTable x y w num (wide x w) with name := name } =
      copiedName tableName := hname
  obtain ⟨t,hinit,hlaid⟩ := tableinit_laid hw hstart hstop rfl rfl rfl rfl rfl hnamed
    List.length_replicate hzeros
  have hfields := sTableTableinit_fields hinit
  have hnot : ¬ nameLen tableName < 0 := by omega
  have hcreate : sTableCreate tableName x y w num = .done t := by
    rw [sTableCreate_accepted hspace hnum haccepted,if_neg hnot,initialised,hcopy,Option.bind_some,hinit]
    rfl
  have hnum' : t.relLineNum = wide x w := by rw [hfields]; rfl
  have hname' : t.nameText = copiedName tableName := by rw [hfields]; exact hname
  refine ⟨t,hcreate,?_,hlaid.tableX,hlaid.tableY,?_,hlaid.colwidth,hnum',?_,?_,?_,?_,?_⟩
  · rw [hfields]
    rfl
  · rw [hfields]
    rfl
  · rw [hfields]
    rfl
  · rw [hnum',hname']
    intro p hp
    simp only [titleWrites,List.mem_cons,List.not_mem_nil,or_false] at hp
    rcases hp with rfl | rfl
    · simp only [List.length_replicate]
      omega
    · simp only
      unfold titleColumn at hstart hstop
      omega
  · have hline := hlaid.lineOne (show 0 < wide x w by omega)
    rw [Nat.add_zero] at hline
    rw [hnum',hline,picture,if_neg (by omega),if_neg (by omega),if_neg (by decide),if_pos rfl,
      titleLine,if_pos (Or.inl rfl)]
    rfl
  · have hborder : wide x w - 3 = (w + 1) * x := by omega
    rw [hnum',hlaid.lineOne (show wide x w - 3 < wide x w by omega),hborder,picture,
      if_neg (by omega),if_neg (by omega),if_neg (by decide),if_pos rfl,titleLine,
      if_pos (Or.inr rfl)]
    rfl
  · rw [hnum',hlaid.lineOne (show wide x w - 1 < wide x w by omega),picture,if_pos (by omega)]

/-- Enough memory and an accepted title give a table with its title in place exactly for
the titles that fit. -/
theorem title_kept_iff {tableName : CString} {x y w num : ℕ} (hw : 1 ≤ w)
    (hspace : needed x y w ≤ num) (hnum : num < 2^31) (haccepted : ¬ Rejects tableName x y w num) :
    (∃ t, sTableCreate tableName x y w num = .done t ∧ TitleKept x y w num t) ↔
      TitleFits (nameLen tableName) (wide x w) := by
  constructor
  · rintro ⟨t,hcreate,hkept⟩
    exact hkept.fits hspace hnum haccepted hcreate
  · exact titleKept_of_fits hw hspace hnum haccepted

theorem title_kept_small : ∃ t, sTableCreate (CString.lit "abc") 1 1 5 165 = .done t ∧
    TitleKept 1 1 5 165 t :=
  (title_kept_iff (by decide) (by decide) (by decide) (by decide)).mpr (by unfold TitleFits; decide)

def longTitle : CString :=
  CString.lit "the name of this table has one byte more than its array can store"

/-- The check accepts a title over the right border, and one that runs into `table_type`. -/
theorem titles_not_kept :
    (¬ Rejects (CString.lit "quad") 1 1 4 145 ∧ ¬ ∃ t,
      sTableCreate (CString.lit "quad") 1 1 4 145 = .done t ∧ TitleKept 1 1 4 145 t) ∧
    ¬ Rejects longTitle 1 1 70 475 ∧ ¬ ∃ t,
      sTableCreate longTitle 1 1 70 475 = .done t ∧ TitleKept 1 1 70 475 t := by
  refine ⟨⟨by decide,?_⟩,by decide,?_⟩
  · rintro ⟨t,hcreate,hkept⟩
    have hfits := hkept.fits (by decide) (by decide) (by decide) hcreate
    revert hfits
    unfold TitleFits
    decide
  · rintro ⟨t,hcreate,hkept⟩
    have hfits := hkept.fits (by decide) (by decide) (by decide) hcreate
    revert hfits
    unfold TitleFits
    decide

end StringTable
end WddProc
