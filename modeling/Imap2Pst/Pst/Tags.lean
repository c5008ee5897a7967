import Imap2Pst.Pst.Format

/-!
# Pst.Tags

The property tags the writer emits, translated from `pst/prop_tags.h` and the property types of
`pst/pst_format.h`. A tag (`PropTag`) is a property id of 16 bits over a property type of 16 bits.

* `makeTag`, `tagId`, `tagType` — a tag and its halves.
* `fixedPropSize` — how wide the values of a type are.
-/

namespace Imap2Pst
namespace Pst

/-! ## Property types -/

def kPtShort : Nat := 0x0002
def kPtLong : Nat := 0x0003
def kPtFloating : Nat := 0x0004
def kPtDouble : Nat := 0x0005
def kPtCurrency : Nat := 0x0006
def kPtAppTime : Nat := 0x0007
def kPtError : Nat := 0x000A
def kPtBoolean : Nat := 0x000B
def kPtObject : Nat := 0x000D
def kPtLongLong : Nat := 0x0014
def kPtString8 : Nat := 0x001E
def kPtUnicode : Nat := 0x001F
def kPtSystime : Nat := 0x0040
def kPtBinary : Nat := 0x0102
def kPtMvLong : Nat := 0x1003
def kPtMvUnicode : Nat := 0x101F

/-- The octets of a fixed-width value, or 0 for a type of variable width. -/
def fixedPropSize (type : Nat) : Nat :=
  if type = kPtShort then 2
  else if type = kPtBoolean then 1
  else if type = kPtLong ∨ type = kPtFloating ∨ type = kPtError then 4
  else if type = kPtDouble ∨ type = kPtCurrency ∨ type = kPtAppTime ∨ type = kPtLongLong ∨
    type = kPtSystime then 8
  else 0

/-- Values of four octets or fewer live in the record of their property. -/
def propIsInline (type : Nat) : Bool := fixedPropSize type ≠ 0 && fixedPropSize type ≤ 4

/-! ## Tags -/

def makeTag (id type : Nat) : Nat := id <<< 16 ||| type
def tagId (t : Nat) : Nat := t >>> 16 % 2 ^ 16
def tagType (t : Nat) : Nat := t &&& 0xFFFF

theorem makeTag_eq {id type : Nat} (htype : type < 2 ^ 16) : makeTag id type = 65536 * id + type := by
  rw [makeTag, ← Nat.shiftLeft_add_eq_or_of_lt htype, Nat.shiftLeft_eq]
  omega

theorem tagId_makeTag {id type : Nat} (hid : id < 2 ^ 16) (htype : type < 2 ^ 16) :
    tagId (makeTag id type) = id := by
  rw [makeTag_eq htype, tagId, Nat.shiftRight_eq_div_pow]
  omega

theorem tagType_eq (t : Nat) : tagType t = t % 2 ^ 16 := by
  rw [tagType, show (0xFFFF : Nat) = 2 ^ 16 - 1 from rfl, Nat.and_two_pow_sub_one_eq_mod]

theorem tagType_makeTag {id type : Nat} (htype : type < 2 ^ 16) :
    tagType (makeTag id type) = type := by
  rw [makeTag_eq htype, tagType_eq]
  omega

theorem tagType_lt (t : Nat) : tagType t < 2 ^ 16 := by
  rw [tagType_eq]
  exact Nat.mod_lt _ (by decide)

theorem tagId_lt (t : Nat) : tagId t < 2 ^ 16 := Nat.mod_lt _ (by decide)

theorem fixedPropSize_cases (type : Nat) : fixedPropSize type ∈ [0, 1, 2, 4, 8] := by
  unfold fixedPropSize
  split
  · simp
  split
  · simp
  split
  · simp
  split <;> simp

def PR_MESSAGE_CLASS : Nat := makeTag 0x001A kPtUnicode
def PR_SUBJECT : Nat := makeTag 0x0037 kPtUnicode
def PR_CLIENT_SUBMIT_TIME : Nat := makeTag 0x0039 kPtSystime
def PR_SENT_REPRESENTING_NAME : Nat := makeTag 0x0042 kPtUnicode
def PR_CONVERSATION_TOPIC : Nat := makeTag 0x0070 kPtUnicode
def PR_TRANSPORT_MESSAGE_HEADERS : Nat := makeTag 0x007D kPtUnicode
def PR_DISPLAY_BCC : Nat := makeTag 0x0E02 kPtUnicode
def PR_DISPLAY_CC : Nat := makeTag 0x0E03 kPtUnicode
def PR_DISPLAY_TO : Nat := makeTag 0x0E04 kPtUnicode
def PR_MESSAGE_DELIVERY_TIME : Nat := makeTag 0x0E06 kPtSystime
def PR_MESSAGE_FLAGS : Nat := makeTag 0x0E07 kPtLong
def PR_MESSAGE_SIZE : Nat := makeTag 0x0E08 kPtLong
def PR_HASATTACH : Nat := makeTag 0x0E1B kPtBoolean
def PR_ATTACH_SIZE : Nat := makeTag 0x0E20 kPtLong
def PR_ATTACH_NUM : Nat := makeTag 0x0E21 kPtLong
def PR_BODY : Nat := makeTag 0x1000 kPtUnicode
def PR_HTML : Nat := makeTag 0x1013 kPtBinary
def PR_RTF_COMPRESSED : Nat := makeTag 0x1009 kPtBinary
def PR_RTF_IN_SYNC : Nat := makeTag 0x0E1F kPtBoolean
def PR_LAST_VERB_EXECUTED : Nat := makeTag 0x1081 kPtLong
def PR_LAST_VERB_EXECUTION_TIME : Nat := makeTag 0x1082 kPtSystime
def PR_ICON_INDEX : Nat := makeTag 0x1080 kPtLong
def PR_INTERNET_MESSAGE_ID : Nat := makeTag 0x1035 kPtUnicode
def PR_IN_REPLY_TO_ID : Nat := makeTag 0x1042 kPtUnicode
def PR_FLAG_STATUS : Nat := makeTag 0x1090 kPtLong
def PR_DISPLAY_NAME : Nat := makeTag 0x3001 kPtUnicode
def PR_ADDRTYPE : Nat := makeTag 0x3002 kPtUnicode
def PR_EMAIL_ADDRESS : Nat := makeTag 0x3003 kPtUnicode
def PR_CREATION_TIME : Nat := makeTag 0x3007 kPtSystime
def PR_LAST_MODIFICATION_TIME : Nat := makeTag 0x3008 kPtSystime
def PR_OBJECT_TYPE : Nat := makeTag 0x0FFE kPtLong
def PR_RECORD_KEY : Nat := makeTag 0x0FF9 kPtBinary
def PR_ENTRYID : Nat := makeTag 0x0FFF kPtBinary
def PR_INTERNET_CPID : Nat := makeTag 0x3FDE kPtLong
def PR_MESSAGE_CODEPAGE : Nat := makeTag 0x3FFD kPtLong
def PR_SENDER_NAME : Nat := makeTag 0x0C1A kPtUnicode
def PR_SENDER_ADDRTYPE : Nat := makeTag 0x0C1E kPtUnicode
def PR_SENDER_EMAIL_ADDRESS : Nat := makeTag 0x0C1F kPtUnicode
def PR_RECIPIENT_TYPE : Nat := makeTag 0x0C15 kPtLong
def PR_CONTENT_COUNT : Nat := makeTag 0x3602 kPtLong
def PR_CONTENT_UNREAD : Nat := makeTag 0x3603 kPtLong
def PR_SUBFOLDERS : Nat := makeTag 0x360A kPtBoolean
def PR_CONTAINER_CLASS : Nat := makeTag 0x3613 kPtUnicode
def PR_VALID_FOLDER_MASK : Nat := makeTag 0x35DF kPtLong
def PR_IPM_SUBTREE_ENTRYID : Nat := makeTag 0x35E0 kPtBinary
def PR_IPM_OUTBOX_ENTRYID : Nat := makeTag 0x35E2 kPtBinary
def PR_IPM_WASTEBASKET_ENTRYID : Nat := makeTag 0x35E3 kPtBinary
def PR_IPM_SENTMAIL_ENTRYID : Nat := makeTag 0x35E4 kPtBinary
def PR_VIEWS_ENTRYID : Nat := makeTag 0x35E5 kPtBinary
def PR_COMMON_VIEWS_ENTRYID : Nat := makeTag 0x35E6 kPtBinary
def PR_FINDER_ENTRYID : Nat := makeTag 0x35E7 kPtBinary
def PR_PST_PASSWORD : Nat := makeTag 0x67FF kPtLong
def PR_ATTACH_DATA_BIN : Nat := makeTag 0x3701 kPtBinary
/-- The property id of `PR_ATTACH_DATA_BIN`, typed as an object. -/
def PR_ATTACH_DATA_OBJ : Nat := makeTag 0x3701 kPtObject
def PR_ATTACH_FILENAME : Nat := makeTag 0x3704 kPtUnicode
def PR_ATTACH_METHOD : Nat := makeTag 0x3705 kPtLong
def PR_ATTACH_LONG_FILENAME : Nat := makeTag 0x3707 kPtUnicode
def PR_ATTACH_RENDERING_POS : Nat := makeTag 0x370B kPtLong
def PR_ATTACH_MIME_TAG : Nat := makeTag 0x370E kPtUnicode
def PR_ATTACH_CONTENT_ID : Nat := makeTag 0x3712 kPtUnicode
def PR_IMPORTANCE : Nat := makeTag 0x0017 kPtLong
def PR_SENSITIVITY : Nat := makeTag 0x0036 kPtLong
def PR_MESSAGE_TO_ME : Nat := makeTag 0x0057 kPtBoolean
def PR_MESSAGE_CC_ME : Nat := makeTag 0x0058 kPtBoolean
def PR_CONVERSATION_INDEX : Nat := makeTag 0x0071 kPtBinary
def PR_MESSAGE_STATUS : Nat := makeTag 0x0E17 kPtLong
def PR_REPL_ITEMID : Nat := makeTag 0x0E30 kPtBinary
def PR_REPL_CHANGENUM : Nat := makeTag 0x0E33 kPtLongLong
def PR_REPL_VERSION_HISTORY : Nat := makeTag 0x0E34 kPtBinary
def PR_REPL_FLAGS : Nat := makeTag 0x0E38 kPtLong
def PR_REPL_COPIEDFROM_VERSION : Nat := makeTag 0x0E3C kPtBinary
def PR_REPL_COPIEDFROM_ITEMID : Nat := makeTag 0x0E3D kPtBinary
def PR_ITEM_TEMPORARY_FLAGS : Nat := makeTag 0x1097 kPtLong
def PR_CONVERSATION_ID : Nat := makeTag 0x3013 kPtBinary
def PR_SECURE_SUBMIT_FLAGS : Nat := makeTag 0x65C6 kPtLong
def PR_PST_HIDDEN_COUNT : Nat := makeTag 0x6635 kPtLong
def PR_PST_HIDDEN_UNREAD : Nat := makeTag 0x6636 kPtLong
def PR_PST_RECEIVE_FOLDER : Nat := makeTag 0x6605 kPtLong
def PR_SEARCH_KEY : Nat := makeTag 0x300B kPtBinary
def PR_RESPONSIBILITY : Nat := makeTag 0x0E0F kPtBoolean
def PR_DISPLAY_TYPE : Nat := makeTag 0x3900 kPtLong
def PR_7BIT_DISPLAY_NAME : Nat := makeTag 0x39FF kPtUnicode
def PR_SEND_RICH_INFO : Nat := makeTag 0x3A40 kPtBoolean
def PR_VD_NAME : Nat := makeTag 0x6800 kPtUnicode
def PR_VD_FLAGS : Nat := makeTag 0x6803 kPtBoolean
def PR_VD_VERSION : Nat := makeTag 0x6805 kPtMvLong
def PR_VD_STRINGS : Nat := makeTag 0x682F kPtUnicode
def PR_VIEW_DESCRIPTOR_FLAGS : Nat := makeTag 0x7003 kPtLong
def PR_VIEW_DESCRIPTOR_LINKTO : Nat := makeTag 0x7004 kPtBinary
def PR_VIEW_DESCRIPTOR_VIEWFLD : Nat := makeTag 0x7005 kPtBinary
def PR_VIEW_DESCRIPTOR_NAME : Nat := makeTag 0x7006 kPtUnicode
def PR_VIEW_DESCRIPTOR_VERSION : Nat := makeTag 0x7007 kPtLong
def PidTagLtpRowId : Nat := makeTag 0x67F2 kPtLong
def PidTagLtpRowVer : Nat := makeTag 0x67F3 kPtLong
def PidTagNameidBucketCount : Nat := makeTag 0x0001 kPtLong
def PidTagNameidStreamGuid : Nat := makeTag 0x0002 kPtBinary
def PidTagNameidStreamEntry : Nat := makeTag 0x0003 kPtBinary
def PidTagNameidStreamString : Nat := makeTag 0x0004 kPtBinary

/-! ## Values -/

def MSGFLAG_READ : Nat := 0x00000001
def MSGFLAG_UNSENT : Nat := 0x00000008
def MSGFLAG_UNMODIFIED : Nat := 0x00000002
def MSGFLAG_HASATTACH : Nat := 0x00000010
def FLAG_STATUS_NONE : Nat := 0
def FLAG_STATUS_FLAGGED : Nat := 2
def VERB_REPLYTOSENDER : Nat := 102
def ICON_MAIL_REPLIED : Nat := 0x105
def ATTACH_BY_VALUE : Nat := 1
def ATTACH_EMBEDDED_MSG : Nat := 5
def MAPI_TO : Nat := 1
def MAPI_CC : Nat := 2
def MAPI_BCC : Nat := 3
def MAPI_MAILUSER : Nat := 6
def DT_MAILUSER : Nat := 0
def MAPI_ATTACH : Nat := 7
def CP_UTF8 : Nat := 65001

end Pst
end Imap2Pst
