import Namespacing.Text.Basic
set_option autoImplicit false

/-!
# Classes of the language runtime

Inside a namespace a bare class name means a class of that namespace, so references to the classes
that the runtime itself brings have to name the global namespace. This module lists them; settings
may add more.
-/

namespace Namespacing

namespace GlobalClasses

/-- The release that the list was taken from. -/
def release : Text := "8.3".toList

def core : List String :=
  ["stdClass", "Traversable", "IteratorAggregate", "Iterator", "ArrayAccess", "Countable",
   "Serializable", "Stringable", "Throwable", "UnitEnum", "BackedEnum", "Closure", "Generator",
   "ClosedGeneratorException", "WeakReference", "WeakMap", "Fiber", "FiberError", "Attribute",
   "ReturnTypeWillChange", "AllowDynamicProperties", "SensitiveParameter",
   "SensitiveParameterValue", "Override", "InternalIterator", "Directory",
   "__PHP_Incomplete_Class", "php_user_filter", "AssertionError", "Exception", "ErrorException",
   "Error", "CompileError", "ParseError", "TypeError", "ArgumentCountError", "ValueError",
   "ArithmeticError", "DivisionByZeroError", "UnhandledMatchError"]

def json : List String :=
  ["JsonSerializable", "JsonException"]

def dates : List String :=
  ["DateTimeInterface", "DateTime", "DateTimeImmutable", "DateTimeZone", "DateInterval",
   "DatePeriod"]

def standardExceptions : List String :=
  ["LogicException", "BadFunctionCallException", "BadMethodCallException", "DomainException",
   "InvalidArgumentException", "LengthException", "OutOfRangeException", "RuntimeException",
   "OutOfBoundsException", "OverflowException", "RangeException", "UnderflowException",
   "UnexpectedValueException"]

def standardStructures : List String :=
  ["RecursiveIterator", "OuterIterator", "SeekableIterator", "SplObserver", "SplSubject",
   "RecursiveIteratorIterator", "IteratorIterator", "FilterIterator", "RecursiveFilterIterator",
   "CallbackFilterIterator", "RecursiveCallbackFilterIterator", "ParentIterator",
   "LimitIterator", "CachingIterator", "RecursiveCachingIterator", "NoRewindIterator",
   "AppendIterator", "InfiniteIterator", "RegexIterator", "RecursiveRegexIterator",
   "EmptyIterator", "RecursiveTreeIterator", "ArrayObject", "ArrayIterator",
   "RecursiveArrayIterator", "SplFileInfo", "DirectoryIterator", "FilesystemIterator",
   "RecursiveDirectoryIterator", "GlobIterator", "SplFileObject", "SplTempFileObject",
   "SplDoublyLinkedList", "SplQueue", "SplStack", "SplHeap", "SplMinHeap", "SplMaxHeap",
   "SplPriorityQueue", "SplFixedArray", "SplObjectStorage", "MultipleIterator"]

def reflection : List String :=
  ["ReflectionException", "Reflection", "Reflector", "ReflectionFunctionAbstract",
   "ReflectionFunction", "ReflectionGenerator", "ReflectionParameter", "ReflectionType",
   "ReflectionNamedType", "ReflectionUnionType", "ReflectionIntersectionType",
   "ReflectionMethod", "ReflectionClass", "ReflectionObject", "ReflectionProperty",
   "ReflectionClassConstant", "ReflectionExtension", "ReflectionZendExtension",
   "ReflectionReference", "ReflectionAttribute", "ReflectionEnum", "ReflectionEnumUnitCase",
   "ReflectionEnumBackedCase", "ReflectionFiber"]

def sessions : List String :=
  ["SessionHandlerInterface", "SessionIdInterface", "SessionUpdateTimestampHandlerInterface",
   "SessionHandler"]

def dataObjects : List String :=
  ["PDO", "PDOException", "PDOStatement", "PDORow"]

def mysqli : List String :=
  ["mysqli", "mysqli_driver", "mysqli_result", "mysqli_stmt", "mysqli_warning",
   "mysqli_sql_exception"]

def sqlite : List String :=
  ["SQLite3", "SQLite3Stmt", "SQLite3Result"]

def xml : List String :=
  ["DOMException", "DOMImplementation", "DOMNode", "DOMNameSpaceNode", "DOMDocumentFragment",
   "DOMDocument", "DOMNodeList", "DOMNamedNodeMap", "DOMCharacterData", "DOMAttr", "DOMElement",
   "DOMText", "DOMComment", "DOMCdataSection", "DOMDocumentType", "DOMNotation", "DOMEntity",
   "DOMEntityReference", "DOMProcessingInstruction", "DOMXPath", "LibXMLError",
   "SimpleXMLElement", "SimpleXMLIterator", "XMLReader", "XMLWriter", "XSLTProcessor"]

def extensions : List String :=
  ["CURLFile", "CURLStringFile", "CurlHandle", "CurlMultiHandle", "CurlShareHandle", "finfo",
   "ZipArchive", "Collator", "NumberFormatter", "Normalizer", "Locale", "MessageFormatter",
   "IntlDateFormatter", "ResourceBundle", "Transliterator", "IntlException", "HashContext"]

def all : List Text :=
  (core ++ json ++ dates ++ standardExceptions ++ standardStructures ++ reflection ++
    sessions ++ dataObjects ++ mysqli ++ sqlite ++ xml ++ extensions).map String.toList

def withExtra (extra : List Text) : List Text := all ++ extra

end GlobalClasses

end Namespacing
