import AccessLayer.Text.Bytes

/-!
# Packages of the standard library

A reference to a package that a file does not import is resolved in the standard library, when one
of its packages has that name and exports everything that is selected from it.

* `StdPackage.find?`: the path of the package that serves some references.
-/

namespace AccessLayer.Go

/-- A package: its path and what it exports. -/
structure StdPackage where
  path : String
  exported : List String
deriving Repr, Inhabited

namespace StdPackage

/-- Packages whose types and functions occur in access layers. Where two share a name, the first
that fits is taken. -/
def table : List StdPackage := [
  ⟨"bufio", ["MaxScanTokenSize", "NewReadWriter", "NewReader", "NewReaderSize", "NewScanner",
    "NewWriter", "NewWriterSize", "ReadWriter", "Reader", "ScanBytes", "ScanLines", "ScanRunes",
    "ScanWords", "Scanner", "SplitFunc", "Writer"]⟩,
  ⟨"bytes", ["Buffer", "Compare", "Contains", "ContainsAny", "ContainsRune", "Count", "Cut",
    "CutPrefix", "CutSuffix", "Equal", "EqualFold", "Fields", "HasPrefix", "HasSuffix", "Index",
    "IndexByte", "Join", "LastIndex", "Map", "MinRead", "NewBuffer", "NewBufferString",
    "NewReader", "Reader", "Repeat", "Replace", "ReplaceAll", "Split", "SplitN", "Title",
    "ToLower", "ToUpper", "Trim", "TrimLeft", "TrimPrefix", "TrimRight", "TrimSpace",
    "TrimSuffix"]⟩,
  ⟨"cmp", ["Compare", "Less", "Or", "Ordered"]⟩,
  ⟨"context", ["AfterFunc", "Background", "CancelCauseFunc", "CancelFunc", "Canceled", "Cause",
    "Context", "DeadlineExceeded", "TODO", "WithCancel", "WithCancelCause", "WithDeadline",
    "WithTimeout", "WithValue", "WithoutCancel"]⟩,
  ⟨"crypto/rand", ["Int", "Prime", "Read", "Reader", "Text"]⟩,
  ⟨"database/sql", ["ColumnType", "Conn", "DB", "DBStats", "Drivers", "ErrConnDone", "ErrNoRows",
    "ErrTxDone", "IsolationLevel", "LevelDefault", "LevelReadCommitted", "LevelSerializable",
    "Named", "NamedArg", "Null", "NullBool", "NullByte", "NullFloat64", "NullInt16", "NullInt32",
    "NullInt64", "NullString", "NullTime", "Open", "OpenDB", "Out", "RawBytes", "Register",
    "Result", "Row", "Rows", "Scanner", "Stmt", "Tx", "TxOptions"]⟩,
  ⟨"embed", ["FS"]⟩,
  ⟨"encoding/base64", ["CorruptInputError", "Encoding", "NewDecoder", "NewEncoder", "NewEncoding",
    "NoPadding", "RawStdEncoding", "RawURLEncoding", "StdEncoding", "StdPadding", "URLEncoding"]⟩,
  ⟨"encoding/hex", ["Decode", "DecodeString", "DecodedLen", "Dump", "Encode", "EncodeToString",
    "EncodedLen", "ErrLength", "InvalidByteError", "NewDecoder", "NewEncoder"]⟩,
  ⟨"encoding/json", ["Compact", "Decoder", "Delim", "Encoder", "HTMLEscape", "Indent",
    "InvalidUTF8Error", "InvalidUnmarshalError", "Marshal", "MarshalIndent", "Marshaler",
    "MarshalerError", "NewDecoder", "NewEncoder", "Number", "RawMessage", "SyntaxError", "Token",
    "Unmarshal", "UnmarshalFieldError", "UnmarshalTypeError", "Unmarshaler",
    "UnsupportedTypeError", "UnsupportedValueError", "Valid"]⟩,
  ⟨"encoding/xml", ["Attr", "CharData", "Comment", "Decoder", "Encoder", "EndElement", "Header",
    "Marshal", "MarshalIndent", "Marshaler", "Name", "NewDecoder", "NewEncoder", "StartElement",
    "Token", "Unmarshal", "Unmarshaler"]⟩,
  ⟨"errors", ["As", "ErrUnsupported", "Is", "Join", "New", "Unwrap"]⟩,
  ⟨"fmt", ["Append", "Appendf", "Appendln", "Errorf", "FormatString", "Formatter", "Fprint",
    "Fprintf", "Fprintln", "Fscan", "Fscanf", "Fscanln", "GoStringer", "Print", "Printf",
    "Println", "Scan", "ScanState", "Scanf", "Scanln", "Scanner", "Sprint", "Sprintf", "Sprintln",
    "Sscan", "Sscanf", "Sscanln", "State", "Stringer"]⟩,
  ⟨"io", ["ByteReader", "ByteScanner", "ByteWriter", "Closer", "Copy", "CopyBuffer", "CopyN",
    "Discard", "EOF", "ErrClosedPipe", "ErrNoProgress", "ErrShortBuffer", "ErrShortWrite",
    "ErrUnexpectedEOF", "LimitReader", "LimitedReader", "MultiReader", "MultiWriter", "NopCloser",
    "Pipe", "PipeReader", "PipeWriter", "ReadAll", "ReadAtLeast", "ReadCloser", "ReadFull",
    "ReadSeekCloser", "ReadSeeker", "ReadWriteCloser", "ReadWriteSeeker", "ReadWriter", "Reader",
    "ReaderAt", "ReaderFrom", "RuneReader", "SectionReader", "SeekCurrent", "SeekEnd",
    "SeekStart", "Seeker", "StringWriter", "TeeReader", "WriteCloser", "WriteSeeker",
    "WriteString", "Writer", "WriterAt", "WriterTo"]⟩,
  ⟨"io/fs", ["DirEntry", "ErrClosed", "ErrExist", "ErrInvalid", "ErrNotExist", "ErrPermission",
    "FS", "File", "FileInfo", "FileMode", "Glob", "ModeDir", "PathError", "ReadDir", "ReadFile",
    "SkipAll", "SkipDir", "Stat", "Sub", "WalkDir", "WalkDirFunc"]⟩,
  ⟨"log", ["Default", "Fatal", "Fatalf", "Fatalln", "Flags", "LstdFlags", "Logger", "New", "Panic",
    "Panicf", "Panicln", "Prefix", "Print", "Printf", "Println", "SetFlags", "SetOutput",
    "SetPrefix", "Writer"]⟩,
  ⟨"log/slog", ["Any", "Attr", "Bool", "Debug", "Default", "Error", "Group", "Handler", "Info",
    "Int", "Level", "LevelDebug", "LevelError", "LevelInfo", "LevelWarn", "Logger", "New",
    "NewJSONHandler", "NewTextHandler", "SetDefault", "String", "Value", "Warn", "With"]⟩,
  ⟨"maps", ["All", "Clone", "Collect", "Copy", "DeleteFunc", "Equal", "EqualFunc", "Insert",
    "Keys", "Values"]⟩,
  ⟨"math", ["Abs", "Ceil", "Cos", "E", "Exp", "Floor", "Hypot", "Inf", "IsInf", "IsNaN", "Ln2",
    "Log", "Log10", "Log2", "Max", "MaxFloat32", "MaxFloat64", "MaxInt", "MaxInt16", "MaxInt32",
    "MaxInt64", "MaxInt8", "MaxUint32", "MaxUint64", "Min", "MinInt", "MinInt32", "MinInt64",
    "Mod", "NaN", "Phi", "Pi", "Pow", "Round", "Sin", "Sqrt", "Sqrt2", "Tan", "Trunc"]⟩,
  ⟨"math/big", ["Above", "Accuracy", "AwayFromZero", "Below", "ErrNaN", "Exact", "Float", "Int",
    "Jacobi", "MaxBase", "MaxExp", "MaxPrec", "MinExp", "NewFloat", "NewInt", "NewRat",
    "ParseFloat", "Rat", "RoundingMode", "ToNearestAway", "ToNearestEven", "ToNegativeInf",
    "ToPositiveInf", "ToZero", "Word"]⟩,
  ⟨"math/cmplx", ["Abs", "Conj", "Exp", "Inf", "Log", "NaN", "Phase", "Polar", "Pow", "Rect",
    "Sqrt"]⟩,
  ⟨"math/rand/v2", ["ChaCha8", "ExpFloat64", "Float32", "Float64", "Int", "Int32", "Int32N",
    "Int64", "Int64N", "IntN", "N", "New", "NewChaCha8", "NewPCG", "NewZipf", "NormFloat64", "PCG",
    "Perm", "Rand", "Shuffle", "Source", "Uint32", "Uint32N", "Uint64", "Uint64N", "UintN",
    "Zipf"]⟩,
  ⟨"math/rand", ["Float32", "Float64", "Int", "Int31", "Int31n", "Int63", "Int63n", "Intn", "New",
    "NewSource", "Perm", "Rand", "Read", "Seed", "Shuffle", "Source", "Source64", "Uint32",
    "Uint64"]⟩,
  ⟨"mime/multipart", ["File", "FileHeader", "Form", "NewReader", "NewWriter", "Part", "Reader",
    "Writer"]⟩,
  ⟨"net", ["Addr", "CIDRMask", "Conn", "DNSError", "Dial", "DialTimeout", "Dialer", "Error",
    "Flags", "HardwareAddr", "IP", "IPAddr", "IPMask", "IPNet", "IPv4", "Interface",
    "InterfaceAddrs", "Interfaces", "JoinHostPort", "Listen", "Listener", "LookupHost",
    "OpError", "PacketConn", "ParseCIDR", "ParseIP", "ParseMAC", "Resolver", "SplitHostPort",
    "TCPAddr", "TCPConn", "TCPListener", "UDPAddr", "UDPConn", "UnixAddr", "UnixConn"]⟩,
  ⟨"net/http", ["Client", "ConnState", "Cookie", "CookieJar", "DefaultClient", "DefaultServeMux",
    "Dir", "ErrServerClosed", "Error", "FileServer", "FileSystem", "Flusher", "Get", "Handle",
    "HandleFunc", "Handler", "HandlerFunc", "Header", "Hijacker", "ListenAndServe",
    "ListenAndServeTLS", "MethodDelete", "MethodGet", "MethodPatch", "MethodPost", "MethodPut",
    "NewRequest", "NewRequestWithContext", "NewServeMux", "NotFound", "NotFoundHandler", "Post",
    "Redirect", "Request", "Response", "ResponseWriter", "RoundTripper", "SameSite", "ServeMux",
    "Server", "SetCookie", "StatusAccepted", "StatusBadRequest", "StatusConflict",
    "StatusCreated", "StatusForbidden", "StatusInternalServerError", "StatusMethodNotAllowed",
    "StatusNoContent", "StatusNotFound", "StatusNotImplemented", "StatusOK", "StatusText",
    "StatusUnauthorized", "StripPrefix", "TimeoutHandler", "Transport"]⟩,
  ⟨"net/mail", ["Address", "AddressParser", "Header", "Message", "ParseAddress",
    "ParseAddressList", "ParseDate", "ReadMessage"]⟩,
  ⟨"net/netip", ["Addr", "AddrFrom16", "AddrFrom4", "AddrFromSlice", "AddrPort", "MustParseAddr",
    "MustParseAddrPort", "MustParsePrefix", "ParseAddr", "ParseAddrPort", "ParsePrefix",
    "Prefix", "PrefixFrom"]⟩,
  ⟨"net/url", ["Error", "EscapeError", "InvalidHostError", "JoinPath", "Parse", "ParseQuery",
    "ParseRequestURI", "PathEscape", "PathUnescape", "QueryEscape", "QueryUnescape", "URL",
    "User", "UserPassword", "Userinfo", "Values"]⟩,
  ⟨"os", ["Args", "Chdir", "Chmod", "Create", "CreateTemp", "DirEntry", "Environ", "ErrExist",
    "ErrNotExist", "Exit", "File", "FileInfo", "FileMode", "Getenv", "Getwd", "Hostname",
    "IsExist", "IsNotExist", "LookupEnv", "Lstat", "Mkdir", "MkdirAll", "MkdirTemp", "Open",
    "OpenFile", "PathError", "PathSeparator", "Process", "ReadDir", "ReadFile", "Remove",
    "RemoveAll", "Rename", "Setenv", "Signal", "Stat", "Stderr", "Stdin", "Stdout", "Symlink",
    "TempDir", "Unsetenv", "UserHomeDir", "WriteFile"]⟩,
  ⟨"path", ["Base", "Clean", "Dir", "ErrBadPattern", "Ext", "IsAbs", "Join", "Match", "Split"]⟩,
  ⟨"path/filepath", ["Abs", "Base", "Clean", "Dir", "EvalSymlinks", "Ext", "FromSlash", "Glob",
    "IsAbs", "IsLocal", "Join", "ListSeparator", "Match", "Rel", "Separator", "SkipDir", "Split",
    "SplitList", "ToSlash", "VolumeName", "Walk", "WalkDir", "WalkFunc"]⟩,
  ⟨"reflect", ["Array", "Bool", "Chan", "DeepEqual", "Func", "Int", "Interface", "Kind", "Map",
    "Method", "New", "Pointer", "Ptr", "Slice", "String", "Struct", "StructField", "StructTag",
    "Type", "TypeFor", "TypeOf", "Value", "ValueOf", "Zero"]⟩,
  ⟨"regexp", ["Compile", "Match", "MatchString", "MustCompile", "QuoteMeta", "Regexp"]⟩,
  ⟨"slices", ["All", "BinarySearch", "Clone", "Collect", "Compact", "Compare", "Concat", "Contains",
    "ContainsFunc", "Delete", "DeleteFunc", "Equal", "Grow", "Index", "IndexFunc", "Insert",
    "IsSorted", "Max", "Min", "Replace", "Reverse", "Sort", "SortFunc", "SortStableFunc",
    "Sorted", "Values"]⟩,
  ⟨"sort", ["Find", "Float64Slice", "Float64s", "IntSlice", "Interface", "Ints", "IsSorted",
    "Reverse", "Search", "SearchInts", "SearchStrings", "Slice", "SliceIsSorted", "SliceStable",
    "Sort", "Stable", "StringSlice", "Strings"]⟩,
  ⟨"strconv", ["AppendInt", "AppendQuote", "Atoi", "ErrRange", "ErrSyntax", "FormatBool",
    "FormatFloat", "FormatInt", "FormatUint", "IntSize", "Itoa", "NumError", "ParseBool",
    "ParseFloat", "ParseInt", "ParseUint", "Quote", "QuoteRune", "QuoteToASCII", "Unquote"]⟩,
  ⟨"strings", ["Builder", "Clone", "Compare", "Contains", "ContainsAny", "ContainsFunc",
    "ContainsRune", "Count", "Cut", "CutPrefix", "CutSuffix", "EqualFold", "Fields", "FieldsFunc",
    "HasPrefix", "HasSuffix", "Index", "IndexAny", "IndexByte", "IndexFunc", "IndexRune", "Join",
    "LastIndex", "LastIndexByte", "Map", "NewReader", "NewReplacer", "Reader", "Repeat",
    "Replace", "ReplaceAll", "Replacer", "Split", "SplitAfter", "SplitN", "Title", "ToLower",
    "ToTitle", "ToUpper", "Trim", "TrimFunc", "TrimLeft", "TrimPrefix", "TrimRight", "TrimSpace",
    "TrimSuffix"]⟩,
  ⟨"sync", ["Cond", "Locker", "Map", "Mutex", "NewCond", "Once", "OnceFunc", "OnceValue",
    "OnceValues", "Pool", "RWMutex", "WaitGroup"]⟩,
  ⟨"sync/atomic", ["AddInt32", "AddInt64", "AddUint32", "AddUint64", "Bool", "CompareAndSwapInt32",
    "CompareAndSwapInt64", "Int32", "Int64", "LoadInt32", "LoadInt64", "Pointer", "StoreInt32",
    "StoreInt64", "Uint32", "Uint64", "Value"]⟩,
  ⟨"text/template", ["ExecError", "FuncMap", "HTMLEscapeString", "IsTrue", "Must", "New",
    "ParseFS", "ParseFiles", "ParseGlob", "Template"]⟩,
  ⟨"html/template", ["CSS", "Error", "FuncMap", "HTML", "HTMLAttr", "HTMLEscapeString", "IsTrue",
    "JS", "JSStr", "Must", "New", "ParseFS", "ParseFiles", "ParseGlob", "Srcset", "Template",
    "URL"]⟩,
  ⟨"time", ["ANSIC", "After", "AfterFunc", "April", "August", "Date", "DateOnly", "DateTime",
    "December", "Duration", "February", "FixedZone", "Friday", "Hour", "January", "July", "June",
    "Kitchen", "Layout", "LoadLocation", "Local", "Location", "March", "May", "Microsecond",
    "Millisecond", "Minute", "Monday", "Month", "Nanosecond", "NewTicker", "NewTimer",
    "November", "Now", "October", "Parse", "ParseDuration", "ParseError", "ParseInLocation",
    "RFC1123", "RFC3339", "RFC3339Nano", "Saturday", "Second", "September", "Since", "Sleep",
    "Stamp", "Sunday", "Thursday", "Tick", "Ticker", "Time", "TimeOnly", "Timer", "Tuesday",
    "UTC", "Unix", "UnixMicro", "UnixMilli", "Until", "Wednesday", "Weekday"]⟩,
  ⟨"unicode", ["IsControl", "IsDigit", "IsGraphic", "IsLetter", "IsLower", "IsNumber", "IsPrint",
    "IsPunct", "IsSpace", "IsSymbol", "IsUpper", "MaxRune", "RangeTable", "ReplacementChar",
    "ToLower", "ToTitle", "ToUpper"]⟩,
  ⟨"unicode/utf8", ["AppendRune", "DecodeLastRuneInString", "DecodeRune", "DecodeRuneInString",
    "EncodeRune", "MaxRune", "RuneCount", "RuneCountInString", "RuneError", "RuneLen", "RuneSelf",
    "UTFMax", "Valid", "ValidRune", "ValidString"]⟩,
  ⟨"unsafe", ["Add", "Alignof", "Offsetof", "Pointer", "Sizeof", "Slice", "SliceData", "String",
    "StringData"]⟩]

/-- The name by which a package is referred to: the last element of its path that is no version. -/
def name (p : StdPackage) : Bytes :=
  let parts := Bytes.splitOn (Bytes.byte '/') p.path
  match parts.reverse with
  | last :: before :: _ => if last == "v2" then before else last
  | [last] => last
  | [] => []

/-- The path of the first package with the name that exports all of the selected names. -/
def find? (package : Bytes) (selected : List Bytes) : Option Bytes :=
  (table.find? fun p => p.name == package &&
    selected.all fun s => p.exported.any fun e => s == Bytes.ofString e).map
    fun p => Bytes.ofString p.path

end StdPackage

end AccessLayer.Go
