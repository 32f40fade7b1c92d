import EdgeProbe.Interchange.Code
import EdgeProbe.Proofs.Interchange.Fields

/-!
# Code is read back

Types, operands, instructions, terminators and initializers whose numbers fit their fields are read
back from what is written of them, and whatever is read is of that kind.
-/

namespace EdgeProbe

open Json (ofNat list? pair? Reads Record record? variant? isUnit nat32?_ofNat nat64?_ofNat
  reads_nat32? reads_nat64? plain_ofList plain_ofOption)

namespace Ty

/-- The width fits its field. -/
def Representable : Ty → Prop
  | .int width => width < UInt32.size
  | .void | .ptr => True

theorem plain_toJson (ty : Ty) : ty.toJson.Plain := by
  cases ty <;> simp [toJson]

theorem ofJson?_written {ty : Ty} (h : ty.Representable) : ofJson? ty.toJson.written = some ty := by
  cases ty with
  | int width =>
    change (do return .int (← Json.nat32? (ofNat width)) : Option Ty) = _
    rw [nat32?_ofNat h]
    rfl
  | _ => rfl

theorem reads : Reads ofJson? Representable := by
  intro j ty h
  obtain ⟨⟨name, payload⟩, -, h⟩ := Option.bind_eq_some_iff.mp h
  split at h
  · obtain ⟨-, h⟩ := Option.ite_none_right_eq_some.mp h
    exact Option.some.inj h ▸ trivial
  · obtain ⟨-, h⟩ := Option.ite_none_right_eq_some.mp h
    exact Option.some.inj h ▸ trivial
  · obtain ⟨width, hwidth, h⟩ := Option.bind_eq_some_iff.mp h
    exact Option.some.inj h ▸ reads_nat32? _ _ hwidth
  · cases h

end Ty

namespace BlockId

def Representable (id : BlockId) : Prop := id.index < UInt32.size

theorem plain_toJson (id : BlockId) : id.toJson.Plain := Json.plain_ofNat _

theorem ofJson?_written {id : BlockId} (h : id.Representable) : ofJson? id.toJson.written = some id :=
  congrArg (Option.map BlockId.mk) (nat32?_ofNat h)

theorem reads : Reads ofJson? Representable := by
  intro j id h
  obtain ⟨index, hindex, rfl⟩ := Option.map_eq_some_iff.mp h
  exact reads_nat32? j index hindex

end BlockId

namespace InstId

def Representable (id : InstId) : Prop := id.index < UInt32.size

theorem plain_toJson (id : InstId) : id.toJson.Plain := Json.plain_ofNat _

theorem ofJson?_written {id : InstId} (h : id.Representable) : ofJson? id.toJson.written = some id :=
  congrArg (Option.map InstId.mk) (nat32?_ofNat h)

theorem reads : Reads ofJson? Representable := by
  intro j id h
  obtain ⟨index, hindex, rfl⟩ := Option.map_eq_some_iff.mp h
  exact reads_nat32? j index hindex

end InstId

namespace GlobalId

def Representable (id : GlobalId) : Prop := id.index < UInt32.size

theorem plain_toJson (id : GlobalId) : id.toJson.Plain := Json.plain_ofNat _

theorem ofJson?_written {id : GlobalId} (h : id.Representable) : ofJson? id.toJson.written = some id :=
  congrArg (Option.map GlobalId.mk) (nat32?_ofNat h)

theorem reads : Reads ofJson? Representable := by
  intro j id h
  obtain ⟨index, hindex, rfl⟩ := Option.map_eq_some_iff.mp h
  exact reads_nat32? j index hindex

end GlobalId

namespace FuncId

def Representable (id : FuncId) : Prop := id.index < UInt32.size

theorem plain_toJson (id : FuncId) : id.toJson.Plain := Json.plain_ofNat _

theorem ofJson?_written {id : FuncId} (h : id.Representable) : ofJson? id.toJson.written = some id :=
  congrArg (Option.map FuncId.mk) (nat32?_ofNat h)

theorem reads : Reads ofJson? Representable := by
  intro j id h
  obtain ⟨index, hindex, rfl⟩ := Option.map_eq_some_iff.mp h
  exact reads_nat32? j index hindex

end FuncId

namespace Constant

def Representable : Constant → Prop
  | .int width _ => width < UInt32.size
  | .null => True

theorem plain_toJson (c : Constant) : c.toJson.Plain := by
  cases c <;> simp [toJson]

theorem ofJson?_written {c : Constant} (h : c.Representable) :
    ofJson? c.toJson.written = some c := by
  cases c with
  | int width bits =>
    change (do return .int (← Json.nat32? (ofNat width)) (← Json.word? (ofNat bits.toNat)) :
      Option Constant) = _
    rw [nat32?_ofNat h, Json.word?_ofNat]
    rfl
  | null => rfl

theorem reads : Reads ofJson? Representable := by
  intro j c h
  obtain ⟨⟨name, payload⟩, -, h⟩ := Option.bind_eq_some_iff.mp h
  split at h
  · obtain ⟨-, h⟩ := Option.ite_none_right_eq_some.mp h
    exact Option.some.inj h ▸ trivial
  · simp only [Option.bind_eq_bind, Option.bind_eq_some_iff, Option.pure_def,
      Option.some.injEq] at h
    obtain ⟨r, -, width, hwidth, bits, -, rfl⟩ := h
    exact Record.lt_of_required hwidth
  · cases h

end Constant

namespace Value

def Representable : Value → Prop
  | .inst id => id.Representable
  | .arg index => index < UInt32.size
  | .const value => value.Representable
  | .global id => id.Representable
  | .func id => id.Representable

theorem plain_toJson (v : Value) : v.toJson.Plain := by
  cases v <;> simp [toJson, InstId.plain_toJson, Constant.plain_toJson, GlobalId.plain_toJson,
    FuncId.plain_toJson]

theorem ofJson?_written {v : Value} (h : v.Representable) : ofJson? v.toJson.written = some v := by
  cases v with
  | inst id =>
    change (do return .inst (← InstId.ofJson? id.toJson.written) : Option Value) = _
    rw [InstId.ofJson?_written h]
    rfl
  | arg index =>
    change (do return .arg (← Json.nat32? (ofNat index)) : Option Value) = _
    rw [nat32?_ofNat h]
    rfl
  | const value =>
    change (do return .const (← Constant.ofJson? value.toJson.written) : Option Value) = _
    rw [Constant.ofJson?_written h]
    rfl
  | global id =>
    change (do return .global (← GlobalId.ofJson? id.toJson.written) : Option Value) = _
    rw [GlobalId.ofJson?_written h]
    rfl
  | func id =>
    change (do return .func (← FuncId.ofJson? id.toJson.written) : Option Value) = _
    rw [FuncId.ofJson?_written h]
    rfl

theorem reads : Reads ofJson? Representable := by
  intro j v h
  obtain ⟨⟨name, payload⟩, -, h⟩ := Option.bind_eq_some_iff.mp h
  split at h
  all_goals
    simp only [Option.bind_eq_bind, Option.bind_eq_some_iff, Option.pure_def, Option.some.injEq,
      reduceCtorEq] at h
  · obtain ⟨id, hid, rfl⟩ := h
    exact InstId.reads _ _ hid
  · obtain ⟨index, hindex, rfl⟩ := h
    exact reads_nat32? _ _ hindex
  · obtain ⟨value, hvalue, rfl⟩ := h
    exact Constant.reads _ _ hvalue
  · obtain ⟨id, hid, rfl⟩ := h
    exact GlobalId.reads _ _ hid
  · obtain ⟨id, hid, rfl⟩ := h
    exact FuncId.reads _ _ hid

theorem written_toJson_ne_null (v : Value) : v.toJson.written ≠ .null := by
  cases v <;> simp [toJson]

end Value

theorem Predicate.ofJson?_written (pred : Predicate) :
    ofJson? pred.toJson.written = some pred := by
  cases pred <;> rfl

theorem BinOp.ofJson?_written (op : BinOp) : ofJson? op.toJson.written = some op := by
  cases op <;> rfl

theorem CastOp.ofJson?_written (op : CastOp) : ofJson? op.toJson.written = some op := by
  cases op <;> rfl

theorem CallConv.ofJson?_written (conv : CallConv) : ofJson? conv.toJson.written = some conv := by
  cases conv <;> rfl

namespace Callee

def Representable : Callee → Prop
  | .direct id => id.Representable
  | .indirect target => target.Representable

theorem plain_toJson (callee : Callee) : callee.toJson.Plain := by
  cases callee <;> simp [toJson, FuncId.plain_toJson, Value.plain_toJson]

theorem ofJson?_written {callee : Callee} (h : callee.Representable) :
    ofJson? callee.toJson.written = some callee := by
  cases callee with
  | direct id =>
    change (do return .direct (← FuncId.ofJson? id.toJson.written) : Option Callee) = _
    rw [FuncId.ofJson?_written h]
    rfl
  | indirect target =>
    change (do return .indirect (← Value.ofJson? target.toJson.written) : Option Callee) = _
    rw [Value.ofJson?_written h]
    rfl

theorem reads : Reads ofJson? Representable := by
  intro j callee h
  obtain ⟨⟨name, payload⟩, -, h⟩ := Option.bind_eq_some_iff.mp h
  split at h
  all_goals
    simp only [Option.bind_eq_bind, Option.bind_eq_some_iff, Option.pure_def, Option.some.injEq,
      reduceCtorEq] at h
  · obtain ⟨id, hid, rfl⟩ := h
    exact FuncId.reads _ _ hid
  · obtain ⟨target, htarget, rfl⟩ := h
    exact Value.reads _ _ htarget

end Callee

namespace InstKind

/-- The numbers in an instruction fit their fields. -/
def Representable : InstKind → Prop
  | .phi ty incoming => ty.Representable ∧ ∀ e ∈ incoming, e.1.Representable ∧ e.2.Representable
  | .landingPad => True
  | .icmp _ lhs rhs | .binary _ lhs rhs => lhs.Representable ∧ rhs.Representable
  | .cast _ value width => value.Representable ∧ width < UInt32.size
  | .select cond onTrue onFalse =>
    cond.Representable ∧ onTrue.Representable ∧ onFalse.Representable
  | .load ty ptr => ty.Representable ∧ ptr.Representable
  | .store value ptr => value.Representable ∧ ptr.Representable
  | .gep base offset => base.Representable ∧ offset.Representable
  | .alloca size => size < UInt32.size
  | .call callee args ret =>
    callee.Representable ∧ (∀ arg ∈ args, arg.Representable) ∧ ret.Representable

theorem plain_toJson (kind : InstKind) : kind.toJson.Plain := by
  have hincoming : ∀ entry, (incomingToJson entry).Plain := fun entry => by
    simp [incomingToJson, Value.plain_toJson, BlockId.plain_toJson]
  cases kind <;> simp [toJson, Ty.plain_toJson, Value.plain_toJson, Callee.plain_toJson,
    Predicate.toJson, BinOp.toJson, CastOp.toJson, plain_ofList hincoming,
    plain_ofList Value.plain_toJson]

theorem pair?_incomingToJson {entry : Value × BlockId}
    (h : entry.1.Representable ∧ entry.2.Representable) :
    pair? Value.ofJson? BlockId.ofJson? (incomingToJson entry).written = some entry := by
  simp [incomingToJson, pair?, Value.ofJson?_written h.1, BlockId.ofJson?_written h.2]

theorem ofJson?_written {kind : InstKind} (h : kind.Representable) :
    ofJson? kind.toJson.written = some kind := by
  cases kind with
  | landingPad => rfl
  | phi ty incoming =>
    have hincoming := Json.list?_written fun entry hentry => pair?_incomingToJson (h.2 entry hentry)
    change (do
      return .phi (← Ty.ofJson? ty.toJson.written)
        (← list? (pair? Value.ofJson? BlockId.ofJson?)
          (Json.ofList incomingToJson incoming).written) : Option InstKind) = _
    rw [Ty.ofJson?_written h.1, hincoming]
    rfl
  | icmp pred lhs rhs =>
    change (do
      return .icmp (← Predicate.ofJson? pred.toJson.written) (← Value.ofJson? lhs.toJson.written)
        (← Value.ofJson? rhs.toJson.written) : Option InstKind) = _
    rw [Predicate.ofJson?_written, Value.ofJson?_written h.1, Value.ofJson?_written h.2]
    rfl
  | binary op lhs rhs =>
    change (do
      return .binary (← BinOp.ofJson? op.toJson.written) (← Value.ofJson? lhs.toJson.written)
        (← Value.ofJson? rhs.toJson.written) : Option InstKind) = _
    rw [BinOp.ofJson?_written, Value.ofJson?_written h.1, Value.ofJson?_written h.2]
    rfl
  | cast op value width =>
    change (do
      return .cast (← CastOp.ofJson? op.toJson.written) (← Value.ofJson? value.toJson.written)
        (← Json.nat32? (ofNat width)) : Option InstKind) = _
    rw [CastOp.ofJson?_written, Value.ofJson?_written h.1, nat32?_ofNat h.2]
    rfl
  | select cond onTrue onFalse =>
    change (do
      return .select (← Value.ofJson? cond.toJson.written) (← Value.ofJson? onTrue.toJson.written)
        (← Value.ofJson? onFalse.toJson.written) : Option InstKind) = _
    rw [Value.ofJson?_written h.1, Value.ofJson?_written h.2.1, Value.ofJson?_written h.2.2]
    rfl
  | load ty ptr =>
    change (do
      return .load (← Ty.ofJson? ty.toJson.written)
        (← Value.ofJson? ptr.toJson.written) : Option InstKind) = _
    rw [Ty.ofJson?_written h.1, Value.ofJson?_written h.2]
    rfl
  | store value ptr =>
    change (do
      return .store (← Value.ofJson? value.toJson.written)
        (← Value.ofJson? ptr.toJson.written) : Option InstKind) = _
    rw [Value.ofJson?_written h.1, Value.ofJson?_written h.2]
    rfl
  | gep base offset =>
    change (do
      return .gep (← Value.ofJson? base.toJson.written)
        (← Value.ofJson? offset.toJson.written) : Option InstKind) = _
    rw [Value.ofJson?_written h.1, Value.ofJson?_written h.2]
    rfl
  | alloca size =>
    change (do return .alloca (← Json.nat32? (ofNat size)) : Option InstKind) = _
    rw [nat32?_ofNat h]
    rfl
  | call callee args ret =>
    have hargs := Json.list?_written fun arg harg => Value.ofJson?_written (h.2.1 arg harg)
    change (do
      return .call (← Callee.ofJson? callee.toJson.written)
        (← list? Value.ofJson? (Json.ofList Value.toJson args).written)
        (← Ty.ofJson? ret.toJson.written) : Option InstKind) = _
    rw [Callee.ofJson?_written h.1, hargs, Ty.ofJson?_written h.2.2]
    rfl

theorem reads : Reads ofJson? Representable := by
  intro j kind h
  obtain ⟨⟨name, payload⟩, -, h⟩ := Option.bind_eq_some_iff.mp h
  split at h
  · obtain ⟨-, h⟩ := Option.ite_none_right_eq_some.mp h
    exact Option.some.inj h ▸ trivial
  all_goals
    simp only [Option.bind_eq_bind, Option.bind_eq_some_iff, Option.pure_def, Option.some.injEq,
      reduceCtorEq] at h
  · obtain ⟨r, -, ty, hty, incoming, hincoming, rfl⟩ := h
    exact ⟨Record.of_required Ty.reads hty,
      Record.of_required (Reads.list (Reads.pair Value.reads BlockId.reads)) hincoming⟩
  · obtain ⟨r, -, pred, -, lhs, hlhs, rhs, hrhs, rfl⟩ := h
    exact ⟨Record.of_required Value.reads hlhs, Record.of_required Value.reads hrhs⟩
  · obtain ⟨r, -, op, -, lhs, hlhs, rhs, hrhs, rfl⟩ := h
    exact ⟨Record.of_required Value.reads hlhs, Record.of_required Value.reads hrhs⟩
  · obtain ⟨r, -, op, -, value, hvalue, width, hwidth, rfl⟩ := h
    exact ⟨Record.of_required Value.reads hvalue, Record.lt_of_required hwidth⟩
  · obtain ⟨r, -, cond, hcond, onTrue, htrue, onFalse, hfalse, rfl⟩ := h
    exact ⟨Record.of_required Value.reads hcond, Record.of_required Value.reads htrue,
      Record.of_required Value.reads hfalse⟩
  · obtain ⟨r, -, ty, hty, ptr, hptr, rfl⟩ := h
    exact ⟨Record.of_required Ty.reads hty, Record.of_required Value.reads hptr⟩
  · obtain ⟨r, -, value, hvalue, ptr, hptr, rfl⟩ := h
    exact ⟨Record.of_required Value.reads hvalue, Record.of_required Value.reads hptr⟩
  · obtain ⟨r, -, base, hbase, offset, hoffset, rfl⟩ := h
    exact ⟨Record.of_required Value.reads hbase, Record.of_required Value.reads hoffset⟩
  · obtain ⟨r, -, size, hsize, rfl⟩ := h
    exact Record.lt_of_required hsize
  · obtain ⟨r, -, callee, hcallee, args, hargs, ret, hret, rfl⟩ := h
    exact ⟨Record.of_required Callee.reads hcallee, Record.of_required (Reads.list Value.reads) hargs,
      Record.of_required Ty.reads hret⟩

end InstKind

namespace Terminator

/-- The numbers in a terminator fit their fields. -/
def Representable : Terminator → Prop
  | .ret value => ∀ v ∈ value, v.Representable
  | .br target => target.Representable
  | .condBr cond onTrue onFalse =>
    cond.Representable ∧ onTrue.Representable ∧ onFalse.Representable
  | .switch value default cases =>
    value.Representable ∧ default.Representable ∧ ∀ case ∈ cases, case.2.Representable
  | .invoke callee args normal unwind =>
    callee.Representable ∧ (∀ arg ∈ args, arg.Representable) ∧ normal.Representable ∧
      unwind.Representable
  | .resume value => value.Representable
  | .unreachable => True

theorem plain_toJson (term : Terminator) : term.toJson.Plain := by
  have hcase : ∀ case, (caseToJson case).Plain := fun case => by
    simp [caseToJson, BlockId.plain_toJson]
  cases term <;> simp [toJson, Value.plain_toJson, BlockId.plain_toJson, Callee.plain_toJson,
    plain_ofOption Value.plain_toJson, plain_ofList hcase, plain_ofList Value.plain_toJson]

theorem pair?_caseToJson {case : UInt64 × BlockId} (h : case.2.Representable) :
    pair? Json.word? BlockId.ofJson? (caseToJson case).written = some case := by
  simp [caseToJson, pair?, BlockId.ofJson?_written h]

theorem ofJson?_written {term : Terminator} (h : term.Representable) :
    ofJson? term.toJson.written = some term := by
  cases term with
  | unreachable => rfl
  | ret value =>
    have hvalue := Json.option?_written (fun v _ => Value.written_toJson_ne_null v)
      fun v hv => Value.ofJson?_written (h v hv)
    change (do
      return .ret
        (← Json.option? Value.ofJson? (Json.ofOption Value.toJson value).written) : Option Terminator) = _
    rw [hvalue]
    rfl
  | br target =>
    change (do return .br (← BlockId.ofJson? target.toJson.written) : Option Terminator) = _
    rw [BlockId.ofJson?_written h]
    rfl
  | condBr cond onTrue onFalse =>
    change (do
      return .condBr (← Value.ofJson? cond.toJson.written) (← BlockId.ofJson? onTrue.toJson.written)
        (← BlockId.ofJson? onFalse.toJson.written) : Option Terminator) = _
    rw [Value.ofJson?_written h.1, BlockId.ofJson?_written h.2.1, BlockId.ofJson?_written h.2.2]
    rfl
  | switch value default cases =>
    have hcases := Json.list?_written fun case hcase => pair?_caseToJson (h.2.2 case hcase)
    change (do
      return .switch (← Value.ofJson? value.toJson.written)
        (← BlockId.ofJson? default.toJson.written)
        (← list? (pair? Json.word? BlockId.ofJson?)
          (Json.ofList caseToJson cases).written) : Option Terminator) = _
    rw [Value.ofJson?_written h.1, BlockId.ofJson?_written h.2.1, hcases]
    rfl
  | invoke callee args normal unwind =>
    have hargs := Json.list?_written fun arg harg => Value.ofJson?_written (h.2.1 arg harg)
    change (do
      return .invoke (← Callee.ofJson? callee.toJson.written)
        (← list? Value.ofJson? (Json.ofList Value.toJson args).written)
        (← BlockId.ofJson? normal.toJson.written)
        (← BlockId.ofJson? unwind.toJson.written) : Option Terminator) = _
    rw [Callee.ofJson?_written h.1, hargs, BlockId.ofJson?_written h.2.2.1,
      BlockId.ofJson?_written h.2.2.2]
    rfl
  | resume value =>
    change (do return .resume (← Value.ofJson? value.toJson.written) : Option Terminator) = _
    rw [Value.ofJson?_written h]
    rfl

theorem reads : Reads ofJson? Representable := by
  intro j term h
  obtain ⟨⟨name, payload⟩, -, h⟩ := Option.bind_eq_some_iff.mp h
  split at h
  · obtain ⟨-, h⟩ := Option.ite_none_right_eq_some.mp h
    exact Option.some.inj h ▸ trivial
  all_goals
    simp only [Option.bind_eq_bind, Option.bind_eq_some_iff, Option.pure_def, Option.some.injEq,
      reduceCtorEq] at h
  · obtain ⟨value, hvalue, rfl⟩ := h
    exact Reads.option Value.reads _ _ hvalue
  · obtain ⟨target, htarget, rfl⟩ := h
    exact BlockId.reads _ _ htarget
  · obtain ⟨r, -, cond, hcond, onTrue, htrue, onFalse, hfalse, rfl⟩ := h
    exact ⟨Record.of_required Value.reads hcond, Record.of_required BlockId.reads htrue,
      Record.of_required BlockId.reads hfalse⟩
  · obtain ⟨r, -, value, hvalue, default, hdefault, cases, hcases, rfl⟩ := h
    have hany : Reads Json.word? fun _ => True := fun _ _ _ => trivial
    exact ⟨Record.of_required Value.reads hvalue, Record.of_required BlockId.reads hdefault,
      fun case hcase => (Record.of_required (hany.pair BlockId.reads).list hcases case hcase).2⟩
  · obtain ⟨r, -, callee, hcallee, args, hargs, normal, hnormal, unwind, hunwind, rfl⟩ := h
    exact ⟨Record.of_required Callee.reads hcallee, Record.of_required (Reads.list Value.reads) hargs,
      Record.of_required BlockId.reads hnormal, Record.of_required BlockId.reads hunwind⟩
  · obtain ⟨value, hvalue, rfl⟩ := h
    exact Value.reads _ _ hvalue

end Terminator

namespace Initializer

/-- The numbers in an initializer fit their fields. -/
inductive Representable : Initializer → Prop where
  | int {width : Nat} (bits : UInt64) (h : width < UInt32.size) : Representable (.int width bits)
  | bytes (data : List UInt8) : Representable (.bytes data)
  | struct {fields : List Initializer} (h : ∀ field ∈ fields, Representable field) :
    Representable (.struct fields)
  | zero {size : Nat} (h : size < UInt64.size) : Representable (.zero size)

theorem fieldsToJson_eq (fields : List Initializer) : fieldsToJson fields = fields.map toJson := by
  induction fields with
  | nil => rfl
  | cons field rest ih => exact congrArg (field.toJson :: ·) ih

theorem plain_toJson : ∀ i : Initializer, i.toJson.Plain
  | .int width bits => by simp [toJson]
  | .bytes data => by simp [toJson, Json.ofBytes]
  | .struct fields => by
    simpa [toJson, fieldsToJson_eq] using fun field (_ : field ∈ fields) => plain_toJson field
  | .zero size => by simp [toJson]

theorem written_toJson_ne_null (i : Initializer) : i.toJson.written ≠ .null := by
  cases i <;> simp [toJson]

/-- Fields are read back if each of them is. -/
theorem fieldsOfJson?_written {fields : List Initializer}
    (h : ∀ field ∈ fields, ofJson? field.toJson.written = some field) :
    fieldsOfJson? ((fieldsToJson fields).map Json.written) = some fields := by
  induction fields with
  | nil => rfl
  | cons field rest ih =>
    obtain ⟨hfield, hrest⟩ := List.forall_mem_cons.mp h
    change (do
      return (← ofJson? field.toJson.written) ::
        (← fieldsOfJson? ((fieldsToJson rest).map Json.written)) : Option (List Initializer)) = _
    rw [hfield, ih hrest]
    rfl

theorem ofJson?_written {i : Initializer} (h : i.Representable) :
    ofJson? i.toJson.written = some i := by
  induction h with
  | @int width bits h =>
    change (do return .int (← Json.nat32? (ofNat width)) (← Json.word? (ofNat bits.toNat)) :
      Option Initializer) = _
    rw [nat32?_ofNat h, Json.word?_ofNat]
    rfl
  | bytes data =>
    change (do
      return .bytes (← list? Json.byte? (Json.ofBytes data).written) : Option Initializer) = _
    rw [Json.list?_ofBytes]
    rfl
  | @struct fields _ ih =>
    change (fieldsOfJson? (Json.writtenItems (fieldsToJson fields))).map struct = _
    rw [Json.writtenItems_eq, fieldsOfJson?_written ih]
    rfl
  | @zero size h =>
    change (do return .zero (← Json.nat64? (ofNat size)) : Option Initializer) = _
    rw [nat64?_ofNat h]
    rfl

theorem reads_leaf : Reads leafOfJson? Representable := by
  intro j i h
  obtain ⟨⟨name, payload⟩, -, h⟩ := Option.bind_eq_some_iff.mp h
  split at h
  all_goals
    simp only [Option.bind_eq_bind, Option.bind_eq_some_iff, Option.pure_def, Option.some.injEq,
      reduceCtorEq] at h
  · obtain ⟨r, -, width, hwidth, bits, -, rfl⟩ := h
    exact .int bits (Record.lt_of_required hwidth)
  · obtain ⟨data, -, rfl⟩ := h
    exact .bytes data
  · obtain ⟨size, hsize, rfl⟩ := h
    exact .zero (reads_nat64? _ _ hsize)

/-- What is read is without fields, or its fields have been read. -/
theorem ofJson?_cases {j : Json} {i : Initializer} (h : ofJson? j = some i) :
    leafOfJson? j = some i ∨ ∃ items fields, fieldsOfJson? items = some fields ∧ i = .struct fields := by
  unfold ofJson? at h
  split at h
  · split at h
    · next items _ =>
      obtain ⟨fields, hfields, rfl⟩ := Option.map_eq_some_iff.mp h
      exact .inr ⟨items, fields, hfields, rfl⟩
    · exact .inl h
  · exact .inl h

theorem exists_item {items : List Json} {fields : List Initializer}
    (h : fieldsOfJson? items = some fields) : ∀ field ∈ fields, ∃ item, ofJson? item = some field := by
  induction items generalizing fields with
  | nil =>
    obtain rfl := Option.some.inj h
    exact fun _ h => absurd h List.not_mem_nil
  | cons item rest ih =>
    obtain ⟨first, hfirst, h⟩ := Option.bind_eq_some_iff.mp h
    obtain ⟨others, hothers, h⟩ := Option.bind_eq_some_iff.mp h
    obtain rfl := Option.some.inj h
    exact List.forall_mem_cons.mpr ⟨⟨item, hfirst⟩, ih hothers⟩

theorem reads (j : Json) (i : Initializer) (h : ofJson? j = some i) : i.Representable := by
  obtain hleaf | ⟨items, fields, hfields, hi⟩ := ofJson?_cases h
  · exact reads_leaf j i hleaf
  · rw [hi]
    refine .struct fun field hfield => ?_
    obtain ⟨item, hitem⟩ := exists_item hfields field hfield
    exact reads item field hitem
termination_by sizeOf i
decreasing_by
  have hlt := List.sizeOf_lt_of_mem hfield
  rw [hi, struct.sizeOf_spec]
  omega

end Initializer

end EdgeProbe
